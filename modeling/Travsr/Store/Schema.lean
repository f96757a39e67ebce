import Mathlib.Data.Multiset.AddSub
import Travsr.Core.Types
import Travsr.Lib.Table

namespace Travsr.Store

open Travsr.Core Relational

structure NodeRow where
  id : NodeId
  vname : VName
  kind : String
  package : String
  line : Option Nat
  endLine : Option Nat
  isNoise : Bool
  testRole : TestRole
  bodyHash : Option String
  deriving DecidableEq, Repr

structure EdgeRow where
  src : NodeId
  dst : NodeId
  kind : EdgeKind
  provenance : String
  confidence : Option Nat
  deriving DecidableEq, Repr

def EdgeRow.key (e : EdgeRow) : NodeId × NodeId × EdgeKind := (e.src, e.dst, e.kind)

/-- One occurrence of an edge in the source text. -/
structure SiteRow where
  src : NodeId
  dst : NodeId
  kind : EdgeKind
  line : Int
  col : Option Nat
  deriving DecidableEq, Repr

def SiteRow.key (r : SiteRow) : NodeId × NodeId × EdgeKind × Int := (r.src, r.dst, r.kind, r.line)

structure FileRow where
  path : String
  sha256 : String
  deriving DecidableEq, Repr

/-- A row of `nodes_fts_map`: the tokens the contentless index holds for the node. -/
structure FtsMapRow where
  nodeId : NodeId
  tokens : String
  deriving DecidableEq, Repr

structure WordsMapRow where
  nodeId : NodeId
  sigWords : String
  pathWords : String
  deriving DecidableEq, Repr

structure VocabRow where
  token : String
  refcount : Nat
  deriving DecidableEq, Repr

abbrev NodeTable := IndexedTable NodeRow NodeRow.id NodeRow.vname
abbrev EdgeTable := Table EdgeRow EdgeRow.key
abbrev SiteTable := Table SiteRow SiteRow.key

/-- The lexical index. The two contentless tables hold postings that can only be retracted
with their exact tokens; the map tables remember these. -/
structure Lexical where
  fts : Multiset FtsMapRow
  ftsMap : Table FtsMapRow FtsMapRow.nodeId
  words : Multiset WordsMapRow
  wordsMap : Table WordsMapRow WordsMapRow.nodeId
  vocab : Table VocabRow VocabRow.token
  /-- `_bulk_fts_pending`, when the temp table exists. -/
  pending : Option (List NodeId)

/-- The temp tables of a bulk initialisation. -/
structure Stage where
  nodes : List NodeRow
  edges : List EdgeRow

structure SqliteStore where
  nodes : NodeTable
  edges : EdgeTable
  sites : SiteTable
  files : Table FileRow FileRow.path
  lex : Lexical
  stage : Option Stage
  stagingActive : Bool

def Lexical.empty : Lexical where
  fts := 0
  ftsMap := Table.empty
  words := 0
  wordsMap := Table.empty
  vocab := Table.empty
  pending := none

def SqliteStore.empty : SqliteStore where
  nodes := IndexedTable.empty
  edges := Table.empty
  sites := Table.empty
  files := Table.empty
  lex := Lexical.empty
  stage := none
  stagingActive := false

/-- `StoreError::Database`, with the context the failing statement names. -/
inductive StoreError where
  | database (context : String)
  deriving DecidableEq, Repr

namespace SqliteStore

/-- The node is stored. -/
def Stored (s : SqliteStore) (id : NodeId) : Prop := s.nodes.Has id

instance (s : SqliteStore) (id : NodeId) : Decidable (s.Stored id) :=
  inferInstanceAs (Decidable (s.nodes.Has id))

/-- Both endpoints of the edge are stored. -/
def Anchored (s : SqliteStore) (e : EdgeRow) : Prop := s.Stored e.src ∧ s.Stored e.dst

instance (s : SqliteStore) (e : EdgeRow) : Decidable (s.Anchored e) :=
  inferInstanceAs (Decidable (_ ∧ _))

/-- No edge hangs from or leads to a node that is not stored. -/
def NoOrphans (s : SqliteStore) : Prop := ∀ e, e ∈ s.edges → s.Anchored e

instance (s : SqliteStore) : Decidable s.NoOrphans :=
  inferInstanceAs (Decidable (∀ e ∈ s.edges.rows, s.Anchored e))

end SqliteStore

end Travsr.Store
