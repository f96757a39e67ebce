import Travsr.Core.Ascii
import Travsr.Store.LexicalRuns

namespace Travsr.Store

open Travsr.Core Core.Text Core.Ident

/-- SQLite's `LIKE .. ESCAPE '\'`. -/
def likeEscape : List Char → List Char → Bool
  | [], cs => cs.isEmpty
  | p :: ps, cs =>
    if p = '\\' then
      match ps, cs with
      | q :: ps, c :: cs => q.toLower = c.toLower && likeEscape ps cs
      | _, _ => false
    else if p = '%' then cs.tails.any (likeEscape ps)
    else
      match cs with
      | [] => false
      | c :: cs => (p = '_' || p.toLower = c.toLower) && likeEscape ps cs

def escapeLike (s : List Char) : List Char :=
  s.flatMap fun c => if c = '\\' ∨ c = '%' ∨ c = '_' then ['\\', c] else [c]

def leafNameCountCap : Nat := 4096

/-- `exact_leaf_name_count`: the nodes named by the token, all nodes once the cap is reached. -/
def exactLeafNameCount (s : SqliteStore) (token : String) : Nat :=
  let escaped := escapeLike token.toList
  let named := s.nodes.rows.filter fun r =>
    [':', '.', '#'].any (fun sep => likeEscape ('%' :: sep :: escaped) r.vname.signature.toList) ∧
      r.kind ≠ "doc-chunk"
  if leafNameCountCap ≤ min named.length leafNameCountCap then s.nodes.rows.length
  else named.length

def wordsDoc (lex : Lexical) (term : String) : Nat :=
  (lex.words.filter fun m =>
    term ∈ splitWhitespace m.sigWords ∨ term ∈ splitWhitespace m.pathWords).card

/-- The row of a term in `nodes_words_vocab`; a term of no posting has none. -/
def vocabDoc (lex : Lexical) (term : String) : Option Nat :=
  if wordsDoc lex term = 0 then none else some (wordsDoc lex term)

def leastDoc (lex : Lexical) (minDoc : Option Nat) (seg : String) : Option (Option Nat) :=
  (vocabDoc lex seg).map fun d => some (minDoc.elim d fun m => min m d)

def symbolFrequency (s : SqliteStore) (token : String) : Option Nat :=
  if token.isEmpty then none
  else
    let segs := (segments token).filter (3 ≤ byteLen ·)
    if segs.isEmpty then
      let count := exactLeafNameCount s token
      if 0 < count then some count else none
    else (segs.foldlM (leastDoc s.lex) none).join

/-- The node has the segment for a word, of its signature or of its path. -/
def HasWord (seg : String) (r : NodeRow) : Prop :=
  seg ∈ segments r.vname.signature ∨ seg ∈ segments r.vname.path

instance (seg : String) (r : NodeRow) : Decidable (HasWord seg r) :=
  inferInstanceAs (Decidable (_ ∨ _))

/-- The boundary predicate holds of the node. -/
def Bears (token : String) (r : NodeRow) : Prop := containsToken token r.vname.signature = true

instance (token : String) (r : NodeRow) : Decidable (Bears token r) :=
  inferInstanceAs (Decidable (_ = _))

variable {s : SqliteStore} {token seg : String}

theorem mem_splitWhitespace_words {text : String} (hseg : 3 ≤ byteLen seg) :
    seg ∈ splitWhitespace (joinWith " " ((segments text).filter (3 ≤ byteLen ·))) ↔
      seg ∈ segments text := by
  have hunbroken : ∀ w ∈ (segments text).filter (3 ≤ byteLen ·), Unbroken w.toList := by
    intro w hw
    obtain ⟨hmem, hlen⟩ := List.mem_filter.mp hw
    refine ⟨fun hnil => ?_, fun c hc => ?_⟩
    · rw [String.toList_eq_nil_iff.mp hnil] at hlen
      exact absurd hlen (by decide)
    · exact not_isWhitespace_of_isAlphanum (word_segments hmem c hc)
  rw [splitWhitespace_joinWith hunbroken, List.mem_filter]
  exact and_iff_left (by simpa using hseg)

/-- In an exact index the document frequency of an indexed segment is the number of nodes that
have it for a word. -/
theorem wordsDoc_eq (h : s.LexicallyExact) (hseg : 3 ≤ byteLen seg) :
    wordsDoc s.lex seg = (s.nodes.rows.filter fun r => HasWord seg r).length := by
  rw [wordsDoc, h.words, Multiset.filter_coe, Multiset.coe_card, List.filter_map, List.length_map]
  refine congrArg List.length (List.filter_congr fun r _ => ?_)
  simp only [Function.comp_apply, wordsRow, nodeFtsWords, mem_splitWhitespace_words hseg]
  rfl

theorem foldlM_leastDoc_iff (lex : Lexical) (segs : List String) (minDoc : Option Nat) (n : Nat)
    (hsome : segs = [] → minDoc.isSome) :
    (((segs.foldlM (leastDoc lex) minDoc).join = none → n = 0) ∧
      ∀ d, (segs.foldlM (leastDoc lex) minDoc).join = some d → n ≤ d) ↔
      (∀ m ∈ minDoc, n ≤ m) ∧ ∀ seg ∈ segs, n ≤ wordsDoc lex seg := by
  induction segs generalizing minDoc with
  | nil =>
    obtain ⟨m, rfl⟩ := Option.isSome_iff_exists.mp (hsome rfl)
    simp
  | cons seg segs ih =>
    rw [List.foldlM_cons, List.forall_mem_cons]
    by_cases hzero : wordsDoc lex seg = 0
    · have hnone : leastDoc lex minDoc seg = none := by simp [leastDoc, vocabDoc, hzero]
      rw [hnone, hzero]
      refine ⟨fun h => ?_, fun h => ⟨fun _ => Nat.le_zero.mp h.2.1, nofun⟩⟩
      have hn : n = 0 := h.1 rfl
      rw [hn]
      exact ⟨fun _ _ => Nat.zero_le _, Nat.le_refl 0, fun _ _ => Nat.zero_le _⟩
    · have hleast : leastDoc lex minDoc seg =
          some (some (minDoc.elim (wordsDoc lex seg) fun m => min m (wordsDoc lex seg))) := by
        simp [leastDoc, vocabDoc, hzero]
      rw [hleast]
      refine (ih _ fun _ => rfl).trans ?_
      cases minDoc with
      | none => simp
      | some m => simp [and_assoc]

theorem length_filter_le_iff {α : Type*} (p q : α → Prop) [DecidablePred p] [DecidablePred q]
    (l : List α) : (l.filter fun a => p a).length ≤ (l.filter fun a => q a).length ↔
      (l.filter fun a => p a ∧ ¬ q a).length ≤ (l.filter fun a => q a ∧ ¬ p a).length := by
  have hsplit : (l.filter fun a => p a).length + (l.filter fun a => q a ∧ ¬ p a).length =
      (l.filter fun a => q a).length + (l.filter fun a => p a ∧ ¬ q a).length := by
    induction l with
    | nil => rfl
    | cons a l ih =>
      by_cases hp : p a <;> by_cases hq : q a <;>
        simp only [List.filter_cons, hp, hq, not_true_eq_false, not_false_eq_true, and_true,
          and_false, decide_true, decide_false, Bool.false_eq_true, if_true, if_false,
          List.length_cons] <;>
        omega
  omega

/-- `None` only where no node bears the token, and else no fewer than bear it: exactly where for
each indexed segment of the token at least as many nodes have it for a word without bearing the
token as bear the token without having it. -/
theorem symbolFrequency_iff (s : SqliteStore) (token : String) (h : s.LexicallyExact)
    (htoken : ∃ seg ∈ segments token, 3 ≤ byteLen seg) :
    ((symbolFrequency s token = none → ∀ r, r ∈ s.nodes → ¬ Bears token r) ∧
      ∀ d, symbolFrequency s token = some d →
        (s.nodes.rows.filter fun r => Bears token r).length ≤ d) ↔
      ∀ seg ∈ segments token, 3 ≤ byteLen seg →
        (s.nodes.rows.filter fun r => Bears token r ∧ ¬ HasWord seg r).length ≤
          (s.nodes.rows.filter fun r => HasWord seg r ∧ ¬ Bears token r).length := by
  have hne : token ≠ "" := by
    rintro rfl
    obtain ⟨seg, hseg, _⟩ := htoken
    exact absurd (show seg ∈ ([] : List String) from hseg) List.not_mem_nil
  have hsegs : (segments token).filter (3 ≤ byteLen ·) ≠ [] := by
    obtain ⟨seg, hseg, hlen⟩ := htoken
    exact List.ne_nil_of_mem (List.mem_filter.mpr ⟨hseg, by simpa using hlen⟩)
  have hfreq : symbolFrequency s token =
      (((segments token).filter (3 ≤ byteLen ·)).foldlM (leastDoc s.lex) none).join := by
    rw [symbolFrequency, if_neg (by simpa using hne), if_neg (by simpa using hsegs)]
  have hnone : (∀ r, r ∈ s.nodes → ¬ Bears token r) ↔
      (s.nodes.rows.filter fun r => Bears token r).length = 0 := by
    rw [List.length_eq_zero_iff, List.filter_eq_nil_iff]
    simp only [decide_eq_true_eq]
    rfl
  rw [hnone, hfreq, foldlM_leastDoc_iff s.lex _ none _ fun hnil => absurd hnil hsegs]
  simp only [Option.mem_def, reduceCtorEq, false_implies, implies_true, true_and, List.mem_filter,
    decide_eq_true_eq, and_imp]
  refine forall_congr' fun seg => forall_congr' fun _ => forall_congr' fun hlen => ?_
  rw [wordsDoc_eq h hlen]
  exact length_filter_le_iff _ _ s.nodes.rows

def fusedStore : SqliteStore :=
  (GraphWrite.putNode (parsed "a.rs" "rust" "class:SqliteStore" "class")).apply lengthEnv .empty

theorem fusedStore_exact : fusedStore.LexicallyExact := by
  have hi : fusedStore.Indexed :=
    GraphWrite.indexed_apply SqliteStore.indexed_empty ⟨by decide, by decide⟩ trivial
  exact lexicallyExact_of_exact hi.exact

/-- The words joined are no word: the index does not know the token that the predicate finds. -/
theorem fused_token_unmeasured :
    fusedStore.LexicallyExact ∧ (∃ seg ∈ segments "sqlitestore", 3 ≤ byteLen seg) ∧
      symbolFrequency fusedStore "sqlitestore" = none ∧
        ∃ r, r ∈ fusedStore.nodes ∧ Bears "sqlitestore" r := by
  refine ⟨fusedStore_exact, by decide, by decide +kernel, ?_⟩
  show ∃ r ∈ fusedStore.nodes.rows, Bears "sqlitestore" r
  decide +kernel

theorem symbolFrequency_iff_fused :
    ((symbolFrequency fusedStore "sqlite_store" = none →
        ∀ r, r ∈ fusedStore.nodes → ¬ Bears "sqlite_store" r) ∧
      ∀ d, symbolFrequency fusedStore "sqlite_store" = some d →
        (fusedStore.nodes.rows.filter fun r => Bears "sqlite_store" r).length ≤ d) ↔
      ∀ seg ∈ segments "sqlite_store", 3 ≤ byteLen seg →
        (fusedStore.nodes.rows.filter fun r => Bears "sqlite_store" r ∧ ¬ HasWord seg r).length ≤
          (fusedStore.nodes.rows.filter fun r => HasWord seg r ∧ ¬ Bears "sqlite_store" r).length :=
  symbolFrequency_iff fusedStore "sqlite_store" fusedStore_exact (by decide)

end Travsr.Store
