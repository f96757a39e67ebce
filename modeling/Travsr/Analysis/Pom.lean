import Travsr.Core.Types
import Mathlib.Tactic.SplitIfs
import Mathlib.Tactic.Tauto

namespace Travsr.Analysis.Pom

open Travsr.Core
open Travsr.Core.Text

/-- What stands between a start tag and its end tag. -/
inductive Content where
  | nil
  | text (chars : List Char) (rest : Content)
  /-- Text that is not spelled plainly: a CDATA section, or a reference and what it stands for. -/
  | quoted (chars : List Char) (rest : Content)
  /-- A comment or a processing instruction. -/
  | note (rest : Content)
  /-- A self-closing element. -/
  | empty (name : String) (rest : Content)
  | elem (name : String) (children rest : Content)

inductive Event where
  | start (name : String)
  | text (chars : List Char)
  | stop (name : String)
  /-- CDATA, references, comments and self-closing elements. -/
  | other
  deriving DecidableEq

def isBlank (s : List Char) : Bool := s.all fun c => c = ' ' || c = '\t' || c = '\r' || c = '\n'

def Content.events : Content → List Event
  | nil => []
  | text chars rest => if isBlank chars then rest.events else .text chars :: rest.events
  | quoted _ rest => .other :: rest.events
  | note rest => .other :: rest.events
  | empty _ rest => .other :: rest.events
  | elem name children rest => .start name :: (children.events ++ .stop name :: rest.events)

structure ParseOutput where
  nodes : List Node
  edges : List Edge
  deriving DecidableEq

def ParseOutput.push (out : ParseOutput) (p : Node × Edge) : ParseOutput :=
  ⟨out.nodes ++ [p.1], out.edges ++ [p.2]⟩

def package (env : Env) (fileId : NodeId) (sig : String) : Node × Edge :=
  let node := Node.new env ⟨"maven.org", "", "", "xml", sig⟩ "package"
  (node, ⟨fileId, node.id, .externalDependency, none, none⟩)

/-- `pkg:<groupId>:<artifactId>@<version>`, where both ids are there. -/
def signature (groupId artifactId version : List Char) : Option String :=
  if groupId ≠ [] ∧ artifactId ≠ [] then
    let ver := if version = [] then ['*'] else version
    some (String.ofList ("pkg:".toList ++ groupId ++ ':' :: artifactId ++ '@' :: ver))
  else none

/-- The cells of the loop. -/
structure Reading where
  inDependencies : Nat
  inDependency : Bool
  groupId : List Char
  artifactId : List Char
  version : List Char
  currentTag : String
  out : ParseOutput
  deriving DecidableEq

def Reading.new (out : ParseOutput) : Reading := ⟨0, false, [], [], [], "", out⟩

def Reading.onStart (s : Reading) (name : String) : Reading :=
  if name = "dependencies" then { s with inDependencies := s.inDependencies + 1 }
  else if name = "dependency" ∧ 0 < s.inDependencies then
    { s with inDependency := true, groupId := [], artifactId := [], version := [] }
  else { s with currentTag := name }

def Reading.onText (s : Reading) (chars : List Char) : Reading :=
  if s.inDependency then
    let text := trimChars chars
    if s.currentTag = "groupId" then { s with groupId := text }
    else if s.currentTag = "artifactId" then { s with artifactId := text }
    else if s.currentTag = "version" then { s with version := text }
    else s
  else s

def Reading.onEnd (env : Env) (fileId : NodeId) (s : Reading) (name : String) : Reading :=
  if name = "dependencies" then { s with inDependencies := s.inDependencies - 1 }
  else if name = "dependency" ∧ s.inDependency then
    { s with
      inDependency := false
      currentTag := ""
      out := match signature s.groupId s.artifactId s.version with
        | some sig => s.out.push (package env fileId sig)
        | none => s.out }
  else { s with currentTag := "" }

def Reading.step (env : Env) (fileId : NodeId) (s : Reading) : Event → Reading
  | .start name => s.onStart name
  | .text chars => s.onText chars
  | .stop name => s.onEnd env fileId name
  | .other => s

/-- `parse_pom_xml` on the events that the reader delivers. -/
def parsePomXml (env : Env) (fileId : NodeId) (events : List Event) (out : ParseOutput) : ParseOutput :=
  (events.foldl (Reading.step env fileId) (Reading.new out)).out

/-! ## What a dependency declares -/

def Content.ownText : Content → List Char
  | nil => []
  | text chars rest => chars ++ rest.ownText
  | quoted chars rest => chars ++ rest.ownText
  | note rest => rest.ownText
  | empty _ rest => rest.ownText
  | elem _ _ rest => rest.ownText

def Content.childTexts (field : String) : Content → List (List Char)
  | nil => []
  | text _ rest => rest.childTexts field
  | quoted _ rest => rest.childTexts field
  | note rest => rest.childTexts field
  | empty name rest => if name = field then [] :: rest.childTexts field else rest.childTexts field
  | elem name children rest =>
    if name = field then trimChars children.ownText :: rest.childTexts field else rest.childTexts field

def Content.child (c : Content) (field : String) : List Char := (c.childTexts field).getLastD []

def Content.own (c : Content) : Option String :=
  signature (c.child "groupId") (c.child "artifactId") (c.child "version")

def Content.closing (inside : Bool) : Content → List (Event × Option String)
  | nil => []
  | text chars rest =>
    if isBlank chars then rest.closing inside else (.text chars, none) :: rest.closing inside
  | quoted _ rest => (.other, none) :: rest.closing inside
  | note rest => (.other, none) :: rest.closing inside
  | empty _ rest => (.other, none) :: rest.closing inside
  | elem name children rest =>
    (.start name, none) :: (children.closing (inside || name = "dependencies") ++
      (.stop name, if name = "dependency" ∧ inside then children.own else none) :: rest.closing inside)

def ParseOutput.add (env : Env) (fileId : NodeId) (out : ParseOutput) : Option String → ParseOutput
  | some sig => out.push (package env fileId sig)
  | none => out

/-- Each dependency inside a `dependencies` element pushes the package that it declares, once, and
nothing else pushes anything. -/
def ReadAsDeclared (env : Env) (fileId : NodeId) (doc : Content) : Prop :=
  ∀ (out : ParseOutput) before e declared after,
    doc.closing false = before ++ (e, declared) :: after →
    parsePomXml env fileId (before.map Prod.fst ++ [e]) out =
      (parsePomXml env fileId (before.map Prod.fst) out).add env fileId declared

/-! ## When the flat cells stand for the tree -/

/-- The tag in force behind a content: that of the last tag, `dependencies` tags and self-closing
elements aside; an end tag leaves none. -/
def Content.tagAfter (tag : String) : Content → String
  | nil => tag
  | text _ rest => rest.tagAfter tag
  | quoted _ rest => rest.tagAfter tag
  | note rest => rest.tagAfter tag
  | empty _ rest => rest.tagAfter tag
  | elem name children rest => rest.tagAfter (if name = "dependencies" then children.tagAfter tag else "")

/-- The texts at every depth, each with the tag in force where it stands. -/
def Content.tagged (tag : String) : Content → List (String × List Char)
  | nil => []
  | text chars rest =>
    if isBlank chars then rest.tagged tag else (tag, trimChars chars) :: rest.tagged tag
  | quoted _ rest => rest.tagged tag
  | note rest => rest.tagged tag
  | empty _ rest => rest.tagged tag
  | elem name children rest =>
    let inner := if name = "dependencies" then tag else name
    children.tagged inner ++
      rest.tagged (if name = "dependencies" then children.tagAfter tag else "")

def lastUnder (field : String) (texts : List (String × List Char)) : List Char :=
  ((texts.filter fun t => t.1 = field).map Prod.snd).getLastD []

def Content.hasDependency : Content → Bool
  | nil => false
  | text _ rest => rest.hasDependency
  | quoted _ rest => rest.hasDependency
  | note rest => rest.hasDependency
  | empty _ rest => rest.hasDependency
  | elem name children rest => name = "dependency" || children.hasDependency || rest.hasDependency

def Content.last (c : Content) (tag : String) : Option String :=
  signature (lastUnder "groupId" (c.tagged tag)) (lastUnder "artifactId" (c.tagged tag))
    (lastUnder "version" (c.tagged tag))

/-- A dependency that holds another declares nothing of its own; in any other, whatever its
children hold, the last texts under the three tags are its own. -/
structure Content.Plain (c : Content) (tag : String) : Prop where
  alone : c.hasDependency → c.own = none
  same : c.hasDependency = false → c.last tag = c.own

def startTag (inside : Bool) (tag name : String) : String :=
  if name = "dependencies" ∨ (name = "dependency" ∧ inside) then tag else name

/-- The dependencies inside a `dependencies` element, each with the tag in force at its start. -/
def Content.dependencies (inside : Bool) (tag : String) : Content → List (Content × String)
  | nil => []
  | text _ rest => rest.dependencies inside tag
  | quoted _ rest => rest.dependencies inside tag
  | note rest => rest.dependencies inside tag
  | empty _ rest => rest.dependencies inside tag
  | elem name children rest =>
    (if name = "dependency" ∧ inside then [(children, tag)] else []) ++
      children.dependencies (inside || name = "dependencies") (startTag inside tag name) ++
      rest.dependencies inside (if name = "dependencies" then children.tagAfter tag else "")

/-! ## The loop over a tree -/

variable {env : Env} {fileId : NodeId}

def run (env : Env) (fileId : NodeId) (s : Reading) (events : List Event) : Reading :=
  events.foldl (Reading.step env fileId) s

@[simp] theorem run_cons (s : Reading) (e : Event) (es : List Event) :
    run env fileId s (e :: es) = run env fileId (s.step env fileId e) es := rfl

@[simp] theorem run_append (s : Reading) (es es' : List Event) :
    run env fileId s (es ++ es') = run env fileId (run env fileId s es) es' := List.foldl_append

/-- The depth counter tells where the loop is, and only there is a dependency read. -/
structure Inv (inside : Bool) (s : Reading) : Prop where
  depth : inside = decide (0 < s.inDependencies)
  reading : s.inDependency = true → inside = true

variable {inside : Bool} {s : Reading}

theorem inv_new (out : ParseOutput) : Inv false (Reading.new out) :=
  ⟨rfl, fun h => Bool.noConfusion h⟩

theorem inv_onStart (h : Inv inside s) (name : String) :
    Inv (inside || name = "dependencies") (s.onStart name) := by
  unfold Reading.onStart
  split_ifs with hdeps hdep
  · subst hdeps
    exact ⟨by simp, fun _ => by simp⟩
  · have hin : inside = true := by rw [h.depth, decide_eq_true hdep.2]
    exact ⟨by simp [h.depth, hdeps], fun _ => by simp [hin]⟩
  · exact ⟨by simp [h.depth, hdeps], fun hread => by simp [h.reading hread]⟩

theorem onStart_tag (h : Inv inside s) (name : String) :
    (s.onStart name).currentTag = startTag inside s.currentTag name := by
  have hin : 0 < s.inDependencies ↔ inside = true := by rw [h.depth, decide_eq_true_iff]
  unfold Reading.onStart startTag
  by_cases hdeps : name = "dependencies"
  · rw [if_pos hdeps, if_pos (Or.inl hdeps)]
  by_cases hdep : name = "dependency" ∧ inside = true
  · rw [if_neg hdeps, if_pos ⟨hdep.1, hin.mpr hdep.2⟩, if_pos (Or.inr hdep)]
  · rw [if_neg hdeps, if_neg fun hc => hdep ⟨hc.1, hin.mp hc.2⟩, if_neg (not_or.mpr ⟨hdeps, hdep⟩)]

@[simp] theorem onStart_out (name : String) : (s.onStart name).out = s.out := by
  unfold Reading.onStart
  split_ifs <;> rfl

theorem onText_keeps (chars : List Char) :
    (s.onText chars).inDependencies = s.inDependencies ∧
      (s.onText chars).inDependency = s.inDependency ∧
      (s.onText chars).currentTag = s.currentTag ∧ (s.onText chars).out = s.out := by
  unfold Reading.onText
  dsimp only
  split_ifs <;> exact ⟨rfl, rfl, rfl, rfl⟩

theorem inv_onText (h : Inv inside s) (chars : List Char) : Inv inside (s.onText chars) := by
  obtain ⟨hdepth, hflag, -, -⟩ := onText_keeps (s := s) chars
  exact ⟨by rw [hdepth]; exact h.depth, fun hread => h.reading (hflag ▸ hread)⟩

theorem onEnd_out_of_other {name : String} (h : ¬ (name = "dependency" ∧ s.inDependency = true)) :
    (s.onEnd env fileId name).out = s.out := by
  unfold Reading.onEnd
  split_ifs <;> rfl

/-- The value of a cell behind the texts: the last under its tag, where there is one. -/
def lastOr (held : List Char) (field : String) (texts : List (String × List Char)) : List Char :=
  ((texts.filter fun t => t.1 = field).map Prod.snd).getLastD held

theorem lastOr_append (held : List Char) (field : String) (texts texts' : List (String × List Char)) :
    lastOr held field (texts ++ texts') = lastOr (lastOr held field texts) field texts' := by
  simp only [lastOr, List.filter_append, List.map_append, List.getLastD_eq_getLast?,
    List.getLast?_append]
  cases ((texts'.filter fun t => t.1 = field).map Prod.snd).getLast? with
  | none => rfl
  | some late => rfl

/-- The three cells behind the texts. -/
structure Read (s : Reading) (texts : List (String × List Char)) (s' : Reading) : Prop where
  groupId : s'.groupId = lastOr s.groupId "groupId" texts
  artifactId : s'.artifactId = lastOr s.artifactId "artifactId" texts
  version : s'.version = lastOr s.version "version" texts

theorem Read.trans {s s' s'' : Reading} {texts texts' : List (String × List Char)} (h : Read s texts s')
    (h' : Read s' texts' s'') : Read s (texts ++ texts') s'' := by
  constructor
  · rw [lastOr_append, ← h.groupId, h'.groupId]
  · rw [lastOr_append, ← h.artifactId, h'.artifactId]
  · rw [lastOr_append, ← h.version, h'.version]

theorem read_onText (h : s.inDependency = true) (chars : List Char) :
    Read s [(s.currentTag, trimChars chars)] (s.onText chars) := by
  unfold Reading.onText
  rw [if_pos h]
  dsimp only
  split_ifs with hg ha hv
  · exact ⟨by simp [hg, lastOr], by simp [hg, lastOr], by simp [hg, lastOr]⟩
  · exact ⟨by simp [ha, lastOr], by simp [ha, lastOr], by simp [ha, lastOr]⟩
  · exact ⟨by simp [hv, lastOr], by simp [hv, lastOr], by simp [hv, lastOr]⟩
  · exact ⟨by simp [hg, lastOr], by simp [ha, lastOr], by simp [hv, lastOr]⟩

/-- What a content does to the cells. -/
structure Walked (c : Content) (s s' : Reading) : Prop where
  depth : s'.inDependencies = s.inDependencies
  tag : s'.currentTag = c.tagAfter s.currentTag
  reading : s'.inDependency = (s.inDependency && !c.hasDependency)
  cells : s'.inDependency = true → Read s (c.tagged s.currentTag) s'

theorem Walked.read {c : Content} {s s' : Reading} (h : Walked c s s') (hread : s.inDependency = true)
    (hnone : c.hasDependency = false) : Read s (c.tagged s.currentTag) s' :=
  h.cells (by rw [h.reading, hread, hnone]; rfl)

/-- An element between its tags, from what its content does. -/
structure Closed (name : String) (children : Content) (s s' : Reading) : Prop where
  depth : s'.inDependencies = s.inDependencies
  tag : s'.currentTag = if name = "dependencies" then children.tagAfter s.currentTag else ""
  reading : s'.inDependency = (s.inDependency && !(decide (name = "dependency") || children.hasDependency))
  cells : s'.inDependency = true →
    Read s (children.tagged (if name = "dependencies" then s.currentTag else name)) s'

theorem closed_dependencies {children : Content} {s s' : Reading}
    (h : Walked children (s.onStart "dependencies") s') :
    Closed "dependencies" children s (s'.onEnd env fileId "dependencies") := by
  have hstart : s.onStart "dependencies" = { s with inDependencies := s.inDependencies + 1 } := if_pos rfl
  have hend : s'.onEnd env fileId "dependencies" = { s' with inDependencies := s'.inDependencies - 1 } :=
    if_pos rfl
  rw [hstart] at h
  rw [hend]
  refine ⟨?_, ?_, ?_, fun hread => ?_⟩
  · show s'.inDependencies - 1 = s.inDependencies
    rw [h.depth]
    exact Nat.add_sub_cancel ..
  · rw [if_pos rfl]
    exact h.tag
  · exact h.reading
  · have hcells := h.cells hread
    rw [if_pos rfl]
    exact ⟨hcells.groupId, hcells.artifactId, hcells.version⟩

theorem closed_dependency {children : Content} {s s' : Reading} (hin : 0 < s.inDependencies)
    (h : Walked children (s.onStart "dependency") s') :
    Closed "dependency" children s (s'.onEnd env fileId "dependency") := by
  have hstart : s.onStart "dependency" =
      { s with inDependency := true, groupId := [], artifactId := [], version := [] } := by
    unfold Reading.onStart
    rw [if_neg (by decide), if_pos ⟨rfl, hin⟩]
  have hdepth : s'.inDependencies = s.inDependencies := by rw [h.depth, hstart]
  -- The end tag clears the flag where it is set; where a nested dependency cleared it, it stays clear.
  cases hflag : s'.inDependency with
  | true =>
    unfold Reading.onEnd
    rw [if_neg (by decide), if_pos ⟨rfl, hflag⟩]
    exact ⟨hdepth, rfl, by simp, fun hc => Bool.noConfusion hc⟩
  | false =>
    unfold Reading.onEnd
    rw [if_neg (by decide), if_neg (by simp [hflag])]
    exact ⟨hdepth, rfl, by simp [hflag], fun hc => absurd hc (by simp [hflag])⟩

theorem closed_other {name : String} {children : Content} {s s' : Reading}
    (hdeps : name ≠ "dependencies") (hdep : name = "dependency" → s.inDependencies = 0)
    (hflag : name = "dependency" → s.inDependency = false)
    (h : Walked children (s.onStart name) s') :
    Closed name children s (s'.onEnd env fileId name) := by
  have hstart : s.onStart name = { s with currentTag := name } := by
    unfold Reading.onStart
    rw [if_neg hdeps, if_neg fun hc => absurd (hdep hc.1) hc.2.ne']
  rw [hstart] at h
  have hclosed : ¬ (name = "dependency" ∧ s'.inDependency = true) := by
    rintro ⟨hname, hread⟩
    rw [h.reading, hflag hname, Bool.false_and] at hread
    exact Bool.noConfusion hread
  unfold Reading.onEnd
  rw [if_neg hdeps, if_neg hclosed]
  refine ⟨h.depth, (if_neg hdeps).symm, ?_, fun hread => ?_⟩
  · show s'.inDependency = _
    rw [h.reading]
    by_cases hname : name = "dependency"
    · rw [hflag hname, Bool.false_and, Bool.false_and]
    · rw [decide_eq_false hname, Bool.false_or]
  · rw [if_neg hdeps]
    have hcells := h.cells hread
    exact ⟨hcells.groupId, hcells.artifactId, hcells.version⟩

theorem closed (env : Env) (fileId : NodeId) (hinv : Inv inside s) (name : String) {children : Content} {s' : Reading}
    (h : Walked children (s.onStart name) s') :
    Closed name children s (s'.onEnd env fileId name) := by
  by_cases hdeps : name = "dependencies"
  · subst hdeps
    exact closed_dependencies h
  by_cases hdep : name = "dependency" ∧ 0 < s.inDependencies
  · obtain ⟨rfl, hin⟩ := hdep
    exact closed_dependency hin h
  · have hzero : name = "dependency" → s.inDependencies = 0 := by
      intro hname
      by_contra hne
      exact hdep ⟨hname, Nat.pos_of_ne_zero hne⟩
    refine closed_other hdeps hzero (fun hname => ?_) h
    by_contra hread
    have hin := hinv.reading (Bool.not_eq_false _ ▸ hread)
    rw [hinv.depth, decide_eq_true_iff, hzero hname] at hin
    exact Nat.lt_irrefl 0 hin

theorem Closed.inv {name : String} {children : Content} {s s' : Reading} (h : Closed name children s s')
    (hinv : Inv inside s) : Inv inside s' := by
  refine ⟨by rw [h.depth]; exact hinv.depth, fun hread => hinv.reading ?_⟩
  rw [h.reading, Bool.and_eq_true] at hread
  exact hread.1

theorem Closed.trans {name : String} {children rest : Content} {s s' s'' : Reading}
    (h : Closed name children s s') (h' : Walked rest s' s'') :
    Walked (.elem name children rest) s s'' := by
  refine ⟨h'.depth.trans h.depth, ?_, ?_, fun hread => ?_⟩
  · rw [h'.tag, h.tag]; rfl
  · rw [h'.reading, h.reading, Content.hasDependency]
    cases s.inDependency <;> cases decide (name = "dependency") <;> cases children.hasDependency <;> rfl
  · have hread' : s'.inDependency = true := by
      rw [h'.reading, Bool.and_eq_true] at hread
      exact hread.1
    have hcells := h'.cells hread
    rw [h.tag] at hcells
    exact (h.cells hread').trans hcells

theorem walked_text (chars : List Char) {rest : Content} {s s' : Reading}
    (hblank : isBlank chars = false) (h : Walked rest (s.onText chars) s') :
    Walked (.text chars rest) s s' := by
  obtain ⟨hdepth, hflag, htag, -⟩ := onText_keeps (s := s) chars
  refine ⟨h.depth.trans hdepth, by rw [h.tag, htag]; rfl, by rw [h.reading, hflag]; rfl, fun hread => ?_⟩
  have hread' : s.inDependency = true := by
    rw [h.reading, hflag, Bool.and_eq_true] at hread
    exact hread.1
  have hcells := h.cells hread
  rw [htag] at hcells
  have hall := (read_onText hread' chars).trans hcells
  rw [Content.tagged, if_neg (by simp [hblank])]
  exact hall

theorem Walked.of_rest {c rest : Content} {s s' : Reading} (h : Walked rest s s')
    (htag : ∀ tag, c.tagAfter tag = rest.tagAfter tag) (hdep : c.hasDependency = rest.hasDependency)
    (htagged : ∀ tag, c.tagged tag = rest.tagged tag) : Walked c s s' :=
  ⟨h.depth, by rw [htag]; exact h.tag, by rw [hdep]; exact h.reading, by rw [htagged]; exact h.cells⟩

theorem walked (env : Env) (fileId : NodeId) (c : Content) (hinv : Inv inside s) : Walked c s (run env fileId s c.events) := by
  induction c generalizing s inside with
  | nil => exact ⟨rfl, rfl, (Bool.and_true _).symm, fun _ => ⟨rfl, rfl, rfl⟩⟩
  | text chars rest ih =>
    rw [Content.events]
    split_ifs with hblank
    · exact (ih hinv).of_rest (fun _ => rfl) rfl fun tag => if_pos hblank
    · exact walked_text chars (Bool.eq_false_iff.mpr hblank) (ih (inv_onText hinv chars))
  | quoted chars rest ih => exact (ih hinv).of_rest (fun _ => rfl) rfl fun _ => rfl
  | note rest ih => exact (ih hinv).of_rest (fun _ => rfl) rfl fun _ => rfl
  | empty name rest ih => exact (ih hinv).of_rest (fun _ => rfl) rfl fun _ => rfl
  | elem name children rest ih ih' =>
    have hclosed := closed env fileId hinv name (ih (inv_onStart hinv name))
    rw [Content.events, run_cons, run_append, run_cons]
    exact hclosed.trans (ih' (hclosed.inv hinv))

/-! ## What the end tags push -/

def Content.pushed (c : Content) (tag : String) : Option String :=
  if c.hasDependency then none else c.last tag

theorem Content.plain_iff {c : Content} {tag : String} : c.Plain tag ↔ c.own = c.pushed tag := by
  unfold Content.pushed
  cases hdep : c.hasDependency with
  | true => exact ⟨fun h => h.alone hdep, fun h => ⟨fun _ => h, fun hno => by simp [hdep] at hno⟩⟩
  | false => exact ⟨fun h => (h.same hdep).symm, fun h => ⟨fun hyes => by simp [hdep] at hyes, fun _ => h.symm⟩⟩

theorem onEnd_out {children : Content} {s' : Reading} (hinv : Inv inside s) (name : String)
    (h : Walked children (s.onStart name) s') :
    (s'.onEnd env fileId name).out =
      s'.out.add env fileId
        (if name = "dependency" ∧ inside then children.pushed s.currentTag else none) := by
  have hin : 0 < s.inDependencies ↔ inside = true := by rw [hinv.depth, decide_eq_true_iff]
  by_cases hdep : name = "dependency" ∧ inside = true
  · obtain ⟨rfl, hinside⟩ := hdep
    have hstart : s.onStart "dependency" =
        { s with inDependency := true, groupId := [], artifactId := [], version := [] } := by
      unfold Reading.onStart
      rw [if_neg (by decide), if_pos ⟨rfl, hin.mpr hinside⟩]
    rw [if_pos ⟨rfl, hinside⟩, Content.pushed]
    rw [hstart] at h
    have hflag : s'.inDependency = !children.hasDependency := h.reading
    cases hnone : children.hasDependency with
    | true =>
      rw [onEnd_out_of_other (by simp [hflag, hnone]), if_pos rfl]
      rfl
    | false =>
      have hcells : Read _ (children.tagged s.currentTag) s' := h.read rfl hnone
      unfold Reading.onEnd
      rw [if_neg (by decide), if_pos ⟨rfl, by rw [hflag, hnone]; rfl⟩, if_neg (by simp)]
      dsimp only
      rw [hcells.groupId, hcells.artifactId, hcells.version]
      show _ = s'.out.add env fileId (children.last s.currentTag)
      unfold Content.last ParseOutput.add
      rfl
  · rw [if_neg hdep]
    refine onEnd_out_of_other fun hc => hdep ⟨hc.1, ?_⟩
    have hread := h.reading
    rw [hc.2, eq_comm, Bool.and_eq_true] at hread
    have hinv' := (inv_onStart hinv name).reading hread.1
    rw [hc.1] at hinv'
    simpa using hinv'

def Pushes (env : Env) (fileId : NodeId) (s : Reading) : List (Event × Option String) → Prop
  | [] => True
  | (e, p) :: es =>
    (s.step env fileId e).out = s.out.add env fileId p ∧ Pushes env fileId (s.step env fileId e) es

theorem pushes_append (s : Reading) (es es' : List (Event × Option String)) :
    Pushes env fileId s (es ++ es') ↔
      Pushes env fileId s es ∧ Pushes env fileId (run env fileId s (es.map Prod.fst)) es' := by
  induction es generalizing s with
  | nil => exact (and_iff_right trivial).symm
  | cons e es ih =>
    rw [List.cons_append, Pushes, Pushes, ih, List.map_cons, run_cons, and_assoc]

theorem pushes_iff (s : Reading) (es : List (Event × Option String)) :
    Pushes env fileId s es ↔ ∀ before e p after, es = before ++ (e, p) :: after →
      (run env fileId s (before.map Prod.fst ++ [e])).out =
        (run env fileId s (before.map Prod.fst)).out.add env fileId p := by
  constructor
  · rintro h before e p after rfl
    have hlast := ((pushes_append s before _).mp h).2.1
    rwa [run_append]
  · intro h
    induction es generalizing s with
    | nil => trivial
    | cons e es ih =>
      refine ⟨h [] e.1 e.2 es rfl, ih _ fun before e' p after hes => ?_⟩
      exact h (e :: before) e' p after (by rw [hes]; rfl)

theorem add_injective {out : ParseOutput} {p q : Option String}
    (h : out.add env fileId p = out.add env fileId q) : p = q := by
  have hnodes : (out.add env fileId p).nodes = (out.add env fileId q).nodes := by rw [h]
  cases p with
  | none =>
    cases q with
    | none => rfl
    | some sig => exact absurd hnodes (by simp [ParseOutput.add, ParseOutput.push])
  | some sig =>
    cases q with
    | none => exact absurd hnodes (by simp [ParseOutput.add, ParseOutput.push])
    | some sig' =>
      have hnode := List.append_cancel_left hnodes
      simp only [package, Node.new, List.cons.injEq, Node.mk.injEq, VName.mk.injEq] at hnode
      rw [hnode.1.2.1.2.2.2.2]

theorem pushes_unique {s : Reading} {es es' : List (Event × Option String)}
    (hevents : es.map Prod.fst = es'.map Prod.fst) (h : Pushes env fileId s es)
    (h' : Pushes env fileId s es') : es = es' := by
  induction es generalizing s es' with
  | nil => exact (List.map_eq_nil_iff.mp hevents.symm).symm
  | cons e es ih =>
    cases es' with
    | nil => exact absurd hevents (by simp)
    | cons e' es' =>
      rw [List.map_cons, List.map_cons, List.cons.injEq] at hevents
      obtain ⟨hfst, hrest⟩ := hevents
      obtain ⟨hout, hpush⟩ := h
      obtain ⟨hout', hpush'⟩ := h'
      have hsnd : e.2 = e'.2 := by
        rw [← hfst, hout] at hout'
        exact add_injective hout'
      rw [← hfst] at hpush'
      rw [ih hrest hpush hpush', Prod.ext hfst hsnd]

def Content.pushing (inside : Bool) (tag : String) : Content → List (Event × Option String)
  | nil => []
  | text chars rest =>
    if isBlank chars then rest.pushing inside tag else (.text chars, none) :: rest.pushing inside tag
  | quoted _ rest => (.other, none) :: rest.pushing inside tag
  | note rest => (.other, none) :: rest.pushing inside tag
  | empty _ rest => (.other, none) :: rest.pushing inside tag
  | elem name children rest =>
    (.start name, none) ::
      (children.pushing (inside || name = "dependencies") (startTag inside tag name) ++
        (.stop name, if name = "dependency" ∧ inside then children.pushed tag else none) ::
          rest.pushing inside (if name = "dependencies" then children.tagAfter tag else ""))

theorem pushing_events (c : Content) (inside : Bool) (tag : String) :
    (c.pushing inside tag).map Prod.fst = c.events := by
  induction c generalizing inside tag with
  | nil => rfl
  | text chars rest ih =>
    rw [Content.pushing, Content.events]
    split_ifs
    · exact ih inside tag
    · exact congrArg _ (ih inside tag)
  | quoted chars rest ih => exact congrArg _ (ih inside tag)
  | note rest ih => exact congrArg _ (ih inside tag)
  | empty name rest ih => exact congrArg _ (ih inside tag)
  | elem name children rest ih ih' =>
    rw [Content.pushing, List.map_cons, List.map_append, List.map_cons, ih, ih']
    rfl

theorem closing_events (c : Content) (inside : Bool) : (c.closing inside).map Prod.fst = c.events := by
  induction c generalizing inside with
  | nil => rfl
  | text chars rest ih =>
    rw [Content.closing, Content.events]
    split_ifs
    · exact ih inside
    · exact congrArg _ (ih inside)
  | quoted chars rest ih => exact congrArg _ (ih inside)
  | note rest ih => exact congrArg _ (ih inside)
  | empty name rest ih => exact congrArg _ (ih inside)
  | elem name children rest ih ih' =>
    rw [Content.closing, List.map_cons, List.map_append, List.map_cons, ih, ih']
    rfl

theorem pushes_pushing (env : Env) (fileId : NodeId) (c : Content) (hinv : Inv inside s) :
    Pushes env fileId s (c.pushing inside s.currentTag) := by
  induction c generalizing s inside with
  | nil => trivial
  | text chars rest ih =>
    rw [Content.pushing]
    split_ifs with hblank
    · exact ih hinv
    · obtain ⟨-, -, htag, hout⟩ := onText_keeps (s := s) chars
      refine ⟨hout, ?_⟩
      rw [← htag]
      exact ih (inv_onText hinv chars)
  | quoted chars rest ih => exact ⟨rfl, ih hinv⟩
  | note rest ih => exact ⟨rfl, ih hinv⟩
  | empty name rest ih => exact ⟨rfl, ih hinv⟩
  | elem name children rest ih ih' =>
    have hstart := inv_onStart hinv name
    have hwalked := walked env fileId children hstart
    have hclosed := closed env fileId hinv name hwalked
    have hrest := ih' (hclosed.inv hinv)
    rw [hclosed.tag] at hrest
    have hchildren := ih hstart
    rw [onStart_tag hinv name] at hchildren
    refine ⟨onStart_out name, (pushes_append _ _ _).mpr ⟨hchildren, ?_⟩⟩
    rw [pushing_events]
    exact ⟨onEnd_out hinv name hwalked, hrest⟩

theorem closing_eq_iff (c : Content) (inside : Bool) (tag : String) :
    c.closing inside = c.pushing inside tag ↔ ∀ d ∈ c.dependencies inside tag, d.1.Plain d.2 := by
  induction c generalizing inside tag with
  | nil => simp [Content.closing, Content.pushing, Content.dependencies]
  | text chars rest ih =>
    rw [Content.closing, Content.pushing, Content.dependencies, ← ih]
    split_ifs
    · rfl
    · rw [List.cons.injEq, and_iff_right rfl]
  | quoted chars rest ih =>
    rw [Content.closing, Content.pushing, Content.dependencies, ← ih, List.cons.injEq, and_iff_right rfl]
  | note rest ih =>
    rw [Content.closing, Content.pushing, Content.dependencies, ← ih, List.cons.injEq, and_iff_right rfl]
  | empty name rest ih =>
    rw [Content.closing, Content.pushing, Content.dependencies, ← ih, List.cons.injEq, and_iff_right rfl]
  | elem name children rest ih ih' =>
    have hlength : (children.closing (inside || name = "dependencies")).length =
        (children.pushing (inside || name = "dependencies") (startTag inside tag name)).length := by
      rw [← List.length_map Prod.fst, closing_events,
        ← pushing_events children (inside || name = "dependencies") (startTag inside tag name),
        List.length_map]
    have hown : ((if name = "dependency" ∧ inside = true then children.own else none) =
        if name = "dependency" ∧ inside = true then children.pushed tag else none) ↔
        ∀ d ∈ (if name = "dependency" ∧ inside = true then [(children, tag)] else []), d.1.Plain d.2 := by
      split_ifs
      · rw [List.forall_mem_singleton, Content.plain_iff]
      · simp
    rw [Content.closing, Content.pushing, Content.dependencies, List.cons.injEq, and_iff_right rfl,
      List.append_eq_append_iff_of_size_eq_left hlength, List.cons.injEq, Prod.mk.injEq, and_iff_right rfl,
      List.forall_mem_append, List.forall_mem_append, ← ih, ← ih', ← hown]
    tauto

/-- Every dependency is read as declared exactly when each is plain. -/
theorem read_as_declared_iff (env : Env) (fileId : NodeId) (doc : Content) :
    ReadAsDeclared env fileId doc ↔ ∀ d ∈ doc.dependencies false "", d.1.Plain d.2 := by
  rw [← closing_eq_iff]
  have hpushing (out : ParseOutput) : Pushes env fileId (Reading.new out) (doc.pushing false "") :=
    pushes_pushing env fileId doc (inv_new out)
  constructor
  · intro h
    refine pushes_unique ((closing_events doc false).trans (pushing_events doc false "").symm) ?_
      (hpushing ⟨[], []⟩)
    exact (pushes_iff _ _).mpr (h ⟨[], []⟩)
  · intro heq out
    have hclosing := hpushing out
    rw [← heq] at hclosing
    exact (pushes_iff _ _).mp hclosing

/-- A dependency on `a:b` that excludes `x:y`. -/
def excluding : Content :=
  .elem "dependencies"
    (.elem "dependency"
      (.elem "groupId" (.text ['a'] .nil)
        (.elem "artifactId" (.text ['b'] .nil)
          (.elem "exclusions"
            (.elem "exclusion"
              (.elem "groupId" (.text ['x'] .nil) (.elem "artifactId" (.text ['y'] .nil) .nil)) .nil)
            .nil)))
      .nil)
    .nil

/-- The excluded artifact is recorded in place of the declared one. -/
theorem exclusion_overwrites :
    ¬ ∀ (env : Env) (fileId : NodeId) (doc : Content), ReadAsDeclared env fileId doc := by
  intro h
  have hend := h ⟨fun _ => 0, id, Char.isAlphanum⟩ 0 excluding ⟨[], []⟩
    ((excluding.closing false).take 18) (.stop "dependency") (some "pkg:a:b@*")
    [(.stop "dependencies", none)] (by decide)
  revert hend
  decide

end Travsr.Analysis.Pom
