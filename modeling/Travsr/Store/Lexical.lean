import Mathlib.Data.Finset.Dedup
import Mathlib.Data.List.Destutter
import Travsr.Store.Schema

namespace Travsr.Store

open Travsr.Core Core.Text Core.Ident

/-- `tokenize_identifier`: the segments, then the whole input when it is one word, without
tokens the trigram index cannot hold; repeats are dropped only side by side. -/
def tokenizeIdentifier (s : String) : String :=
  let originalLower := toAsciiLowercase s
  let tokens :=
    if 3 ≤ byteLen originalLower ∧ !originalLower.toList.any isWhitespace ∧
        originalLower ∉ segments s then
      segments s ++ [originalLower]
    else segments s
  joinWith " " (((tokens.filter (3 ≤ byteLen ·)).destutter (· ≠ ·)).take 64)

def nodeFtsTokens (node : Node) : String :=
  tokenizeIdentifier node.vname.signature ++ " " ++ tokenizeIdentifier node.vname.path ++ " " ++
    toAsciiLowercase node.kind ++ " " ++ toAsciiLowercase node.vname.language

/-- `node_fts_words`: the words of the signature and those of the path. -/
def nodeFtsWords (node : Node) : String × String :=
  (joinWith " " ((segments node.vname.signature).filter (3 ≤ byteLen ·)),
    joinWith " " ((segments node.vname.path).filter (3 ≤ byteLen ·)))

def vocabTokens (tokens : String) : List String :=
  (splitWhitespace tokens).filter (3 ≤ byteLen ·)

end Travsr.Store

namespace Travsr.Store

open Travsr.Core Relational

def ftsRow (node : Node) : FtsMapRow := ⟨node.id, nodeFtsTokens node⟩

def wordsRow (node : Node) : WordsMapRow :=
  ⟨node.id, (nodeFtsWords node).1, (nodeFtsWords node).2⟩

abbrev Vocab := Table VocabRow VocabRow.token

def vocabIncrement (vocab : Vocab) (tokens : String) : Vocab :=
  (vocabTokens tokens).foldl
    (fun v tok => v.upsert ⟨tok, 1⟩ (fun r => { r with refcount := r.refcount + 1 })
      (fun _ => rfl)) vocab

/-- `vocab_decrement`: `MAX(0, refcount - 1)`. -/
def vocabDecrement (vocab : Vocab) (tokens : String) : Vocab :=
  (vocabTokens tokens).foldl
    (fun v tok => v.updateWhere (fun r => r.token = tok)
      (fun r => { r with refcount := r.refcount - 1 }) (fun _ => rfl)) vocab

namespace Lexical

/-- `put_node_fts`: the stale posting is retracted with its own tokens first. -/
def putNodeFts (lex : Lexical) (node : Node) : Lexical :=
  let row := ftsRow node
  let old := lex.ftsMap.find? node.id
  { lex with
    fts := row ::ₘ (match old with
      | some o => lex.fts.erase o
      | none => lex.fts)
    ftsMap := lex.ftsMap.upsert row (fun r => { r with tokens := row.tokens }) (fun _ => rfl)
    vocab := vocabIncrement (match old with
      | some o => vocabDecrement lex.vocab o.tokens
      | none => lex.vocab) row.tokens }

def putNodeFtsWords (lex : Lexical) (node : Node) : Lexical :=
  let row := wordsRow node
  { lex with
    words := row ::ₘ (match lex.wordsMap.find? node.id with
      | some o => lex.words.erase o
      | none => lex.words)
    wordsMap := lex.wordsMap.upsert row
      (fun r => { r with sigWords := row.sigWords, pathWords := row.pathWords }) (fun _ => rfl) }

/-- Both index entries of a node, as every writer but the bulk one makes them. -/
def put (lex : Lexical) (node : Node) : Lexical := (lex.putNodeFts node).putNodeFtsWords node

theorem put_fts (lex : Lexical) (node : Node) : (lex.put node).fts =
    ftsRow node ::ₘ (lex.ftsMap.find? node.id).elim lex.fts lex.fts.erase := by
  rw [put, putNodeFtsWords, putNodeFts]
  cases lex.ftsMap.find? node.id <;> rfl

theorem put_ftsMap (lex : Lexical) (node : Node) : (lex.put node).ftsMap =
    lex.ftsMap.upsert (ftsRow node) (fun r => { r with tokens := (ftsRow node).tokens })
      (fun _ => rfl) := rfl

theorem put_words (lex : Lexical) (node : Node) : (lex.put node).words =
    wordsRow node ::ₘ (lex.wordsMap.find? node.id).elim lex.words lex.words.erase := by
  rw [put, putNodeFtsWords, putNodeFts]
  dsimp only
  cases lex.wordsMap.find? node.id <;> rfl

theorem put_wordsMap (lex : Lexical) (node : Node) : (lex.put node).wordsMap =
    lex.wordsMap.upsert (wordsRow node)
      (fun r => ⟨r.nodeId, (wordsRow node).sigWords, (wordsRow node).pathWords⟩)
      (fun _ => rfl) := rfl

theorem put_vocab (lex : Lexical) (node : Node) : (lex.put node).vocab =
    vocabIncrement ((lex.ftsMap.find? node.id).elim lex.vocab
      fun o => vocabDecrement lex.vocab o.tokens) (nodeFtsTokens node) := by
  simp only [put, putNodeFtsWords, putNodeFts]
  cases lex.ftsMap.find? node.id <;> simp only [Option.elim, ftsRow]

/-- `put_node_fts_map_only` and `put_node_fts_words_map_only`: the postings wait for the rebuild.
Both record the node in the temp table and fail when it is not there. -/
def putMapOnly (lex : Lexical) (node : Node) : Option Lexical :=
  lex.pending.map fun ids =>
    let row := ftsRow node
    let words := wordsRow node
    { lex with
      ftsMap := lex.ftsMap.upsert row (fun r => { r with tokens := row.tokens }) (fun _ => rfl)
      wordsMap := lex.wordsMap.upsert words
        (fun r => { r with sigWords := words.sigWords, pathWords := words.pathWords })
        (fun _ => rfl)
      pending := some (if node.id ∈ ids then ids else ids ++ [node.id]) }

/-- Takes the entries of the nodes out of both indexes, as every deleting writer does. -/
def retract (lex : Lexical) (ids : Finset NodeId) : Lexical :=
  let old := lex.ftsMap.rows.filter (fun m => m.nodeId ∈ ids)
  { lex with
    fts := lex.fts - ↑old
    ftsMap := lex.ftsMap.deleteWhere (fun m => m.nodeId ∈ ids)
    vocab := old.foldl (fun v m => vocabDecrement v m.tokens) lex.vocab
    words := lex.words - ↑(lex.wordsMap.rows.filter (fun m => m.nodeId ∈ ids))
    wordsMap := lex.wordsMap.deleteWhere (fun m => m.nodeId ∈ ids) }

/-- `begin_bulk_fts_tracking`: `CREATE TEMP TABLE IF NOT EXISTS`. -/
def beginBulkFtsTracking (lex : Lexical) : Lexical :=
  { lex with pending := some (lex.pending.getD []) }

def countedVocab (map : Table FtsMapRow FtsMapRow.nodeId) : Vocab :=
  let tokens := map.rows.flatMap (fun m => vocabTokens m.tokens)
  { rows := tokens.dedup.map (fun tok => ⟨tok, tokens.count tok⟩)
    nodup := by
      rw [List.map_map]
      simpa [Function.comp_def] using tokens.nodup_dedup }

/-- `rebuild_fts_from_map`: postings for the pending nodes, then the vocabulary; an empty count
leaves the vocabulary as it was. -/
def rebuildFtsFromMap (lex : Lexical) : Except StoreError Lexical :=
  match lex.pending with
  | none => .error (.database "bulk-inserting nodes_fts + nodes_fts_words from pending nodes")
  | some ids =>
    let vocab := countedVocab lex.ftsMap
    .ok { lex with
      fts := lex.fts + ↑(lex.ftsMap.rows.filter (fun m => m.nodeId ∈ ids))
      words := lex.words + ↑(lex.wordsMap.rows.filter (fun m => m.nodeId ∈ ids))
      pending := none
      vocab := if vocab.rows.isEmpty then lex.vocab else vocab }

end Lexical

end Travsr.Store
