import Mathlib.Data.Finset.Lattice.Basic
import Mathlib.Data.Finset.Filter
import Mathlib.Data.Finset.Image
import Mathlib.Data.List.Nodup
import Mathlib.Tactic.MkIffOfInductiveProp

namespace PartedGraph

/-! ### What the last of several steps decides -/

section Standing

variable {α σ : Type} {puts takes : α → Prop}

def Standing (puts takes : α → Prop) : List α → Prop
  | [] => False
  | c :: cs => (puts c ∧ ∀ d ∈ cs, ¬ takes d) ∨ Standing puts takes cs

instance decidableStanding [DecidablePred puts] [DecidablePred takes] :
    (cs : List α) → Decidable (Standing puts takes cs)
  | [] => inferInstanceAs (Decidable False)
  | c :: cs =>
    have := decidableStanding cs
    inferInstanceAs (Decidable ((puts c ∧ ∀ d ∈ cs, ¬ takes d) ∨ Standing puts takes cs))

theorem Standing.exists_puts {cs : List α} (h : Standing puts takes cs) : ∃ c ∈ cs, puts c := by
  induction cs with
  | nil => exact h.elim
  | cons c cs ih =>
    rcases h with ⟨hp, _⟩ | hst
    · exact ⟨c, List.mem_cons_self, hp⟩
    · obtain ⟨d, hd, hp⟩ := ih hst
      exact ⟨d, List.mem_cons_of_mem c hd, hp⟩

variable {step : σ → α → σ} {s : σ} {cs : List α}

/-- Where each step keeps what it does not take and leaves what it puts, a thing is there at the
end that was there and was never taken, or that was put and not taken since. -/
theorem foldl_of_standing (there : σ → Prop)
    (h : ∀ s c, (there s ∧ ¬ takes c) ∨ puts c → there (step s c))
    (hs : (there s ∧ ∀ c ∈ cs, ¬ takes c) ∨ Standing puts takes cs) : there (cs.foldl step s) := by
  induction cs generalizing s with
  | nil => exact hs.elim And.left False.elim
  | cons c cs ih =>
    apply ih
    rcases hs with ⟨h0, hall⟩ | ⟨hp, hall⟩ | hst
    · rw [List.forall_mem_cons] at hall
      exact .inl ⟨h s c (.inl ⟨h0, hall.1⟩), hall.2⟩
    · exact .inl ⟨h s c (.inr hp), hall⟩
    · exact .inr hst

theorem foldl_iff_standing (there : σ → Prop)
    (h : ∀ s c, there (step s c) ↔ (there s ∧ ¬ takes c) ∨ puts c) :
    there (cs.foldl step s) ↔ (there s ∧ ∀ c ∈ cs, ¬ takes c) ∨ Standing puts takes cs := by
  refine ⟨?_, foldl_of_standing there fun s c => (h s c).mpr⟩
  induction cs generalizing s with
  | nil => exact fun hs => .inl ⟨hs, by simp⟩
  | cons c cs ih =>
    intro hs
    rcases ih hs with ⟨hc, hall⟩ | hst
    · rcases (h s c).mp hc with ⟨h0, hn⟩ | hp
      · exact .inl ⟨h0, List.forall_mem_cons.mpr ⟨hn, hall⟩⟩
      · exact .inr (.inl ⟨hp, hall⟩)
    · exact .inr (.inr hst)

end Standing

/-! ### Graphs given in parts -/

/-- A finite graph whose links carry a label. -/
structure Graph (ν κ : Type) where
  nodes : Finset ν
  links : Finset (ν × ν × κ)

/-- How one part of a graph is brought up to date. -/
inductive Change (ν κ π : Type) where
  | drop (p : π)
  /-- The part is given anew; the links out of the kept nodes stay as they are. -/
  | renew (p : π) (part : Graph ν κ) (kept : Finset ν)

namespace Graph

variable {ν κ : Type}

theorem ext {g h : Graph ν κ} (hn : ∀ x, x ∈ g.nodes ↔ x ∈ h.nodes)
    (hl : ∀ l, l ∈ g.links ↔ l ∈ h.links) : g = h := by
  cases g
  cases h
  rw [mk.injEq]
  exact ⟨Finset.ext hn, Finset.ext hl⟩

def Closed (g : Graph ν κ) : Prop := ∀ l ∈ g.links, l.1 ∈ g.nodes ∧ l.2.1 ∈ g.nodes

variable {π : Type} [DecidableEq π]

def held (owner : ν → Option π) (g : Graph ν κ) (p : π) : Finset ν :=
  g.nodes.filter fun x => owner x = some p

@[simp] theorem mem_held {owner : ν → Option π} {g : Graph ν κ} {p : π} {x : ν} :
    x ∈ g.held owner p ↔ x ∈ g.nodes ∧ owner x = some p := Finset.mem_filter

end Graph

variable {ν κ π : Type} [DecidableEq ν] [DecidableEq κ] [DecidableEq π]

def unions {α : Type} [DecidableEq α] (sets : List (Finset α)) : Finset α := sets.foldr (· ∪ ·) ∅

@[simp] theorem mem_unions {α : Type} [DecidableEq α] {sets : List (Finset α)} {a : α} :
    a ∈ unions sets ↔ ∃ s ∈ sets, a ∈ s := by
  induction sets with
  | nil => simp [unions]
  | cons s sets ih =>
    rw [unions, List.foldr_cons, Finset.mem_union, List.exists_mem_cons_iff]
    exact or_congr_right ih

/-- The parts taken together: all their nodes, and of their links those that have both ends. -/
def assemble (parts : List (Graph ν κ)) : Graph ν κ where
  nodes := unions (parts.map Graph.nodes)
  links := (unions (parts.map Graph.links)).filter fun l =>
    l.1 ∈ unions (parts.map Graph.nodes) ∧ l.2.1 ∈ unions (parts.map Graph.nodes)

theorem mem_assemble_nodes {parts : List (Graph ν κ)} {x : ν} :
    x ∈ (assemble parts).nodes ↔ ∃ part ∈ parts, x ∈ part.nodes := by
  simp [assemble]

theorem mem_assemble_links {parts : List (Graph ν κ)} {l : ν × ν × κ} :
    l ∈ (assemble parts).links ↔ (∃ part ∈ parts, l ∈ part.links) ∧
      l.1 ∈ (assemble parts).nodes ∧ l.2.1 ∈ (assemble parts).nodes := by
  simp [assemble]

theorem closed_assemble (parts : List (Graph ν κ)) : (assemble parts).Closed :=
  fun _ hl => (mem_assemble_links.mp hl).2

/-! ### Bringing a graph up to date part by part -/

namespace Change

def path : Change ν κ π → π
  | drop p => p
  | renew p _ _ => p

def Clears (owner : ν → Option π) (x : ν) (c : Change ν κ π) : Prop := owner x = some c.path

def Emits (x : ν) : Change ν κ π → Prop
  | drop _ => False
  | renew _ part _ => x ∈ part.nodes

/-- The links the change removes of those whose ends are there: those out of the part, but for
the kept nodes, and those into what is gone. -/
def Takes (owner : ν → Option π) (l : ν × ν × κ) : Change ν κ π → Prop
  | drop p => owner l.1 = some p ∨ owner l.2.1 = some p
  | renew p part kept => (owner l.1 = some p ∧ l.1 ∉ kept) ∨
      (owner l.2.1 = some p ∧ l.2.1 ∉ part.nodes)

def links : Change ν κ π → Finset (ν × ν × κ)
  | drop _ => ∅
  | renew _ part kept => part.links.filter fun l => l.1 ∉ kept

def Puts (owner : ν → Option π) (l : ν × ν × κ) (c : Change ν κ π) : Prop :=
  l ∈ c.links ∧ (owner l.2.1 = some c.path → Emits l.2.1 c)

variable {owner : ν → Option π}

instance (x : ν) (c : Change ν κ π) : Decidable (Clears owner x c) :=
  inferInstanceAs (Decidable (_ = _))

instance (x : ν) : (c : Change ν κ π) → Decidable (Emits x c)
  | drop _ => inferInstanceAs (Decidable False)
  | renew _ part _ => inferInstanceAs (Decidable (x ∈ part.nodes))

instance (l : ν × ν × κ) : (c : Change ν κ π) → Decidable (Takes owner l c)
  | drop _ => inferInstanceAs (Decidable (_ ∨ _))
  | renew _ _ _ => inferInstanceAs (Decidable ((_ ∧ _ ∉ _) ∨ _ ∧ _ ∉ _))

instance (l : ν × ν × κ) (c : Change ν κ π) : Decidable (Puts owner l c) :=
  inferInstanceAs (Decidable (_ ∧ (_ → _)))

def apply (owner : ν → Option π) (g : Graph ν κ) : Change ν κ π → Graph ν κ
  | drop p =>
    { nodes := g.nodes.filter fun x => owner x ≠ some p
      links := g.links.filter fun l => l.1 ∉ g.held owner p ∧ l.2.1 ∉ g.held owner p }
  | renew p part kept =>
    { nodes := (g.nodes.filter fun x => owner x ≠ some p) ∪ part.nodes
      links := ((g.links.filter fun l => l.1 ∈ g.held owner p → l.1 ∈ kept) ∪
          part.links.filter fun l => l.1 ∉ kept).filter
        fun l => l.2.1 ∈ g.held owner p → l.2.1 ∈ part.nodes }

theorem mem_apply_nodes {g : Graph ν κ} {c : Change ν κ π} {x : ν} :
    x ∈ (apply owner g c).nodes ↔ (x ∈ g.nodes ∧ ¬ Clears owner x c) ∨ Emits x c := by
  cases c <;> simp [apply, Clears, Emits, path]

theorem mem_apply_links_of {g : Graph ν κ} {c : Change ν κ π} {l : ν × ν × κ}
    (h : (l ∈ g.links ∧ ¬ Takes owner l c) ∨ Puts owner l c) : l ∈ (apply owner g c).links := by
  cases c with
  | drop p =>
    rcases h with ⟨hl, ht⟩ | hf
    · rw [Takes, not_or] at ht
      simp [apply, hl, ht.1, ht.2]
    · exact absurd hf.1 (Finset.notMem_empty l)
  | renew p part kept =>
    simp only [apply, Finset.mem_filter, Finset.mem_union, Graph.mem_held]
    rcases h with ⟨hl, ht⟩ | ⟨hl, hd⟩
    · simp only [Takes, not_or, not_and, not_not] at ht
      exact ⟨.inl ⟨hl, fun h => ht.1 h.2⟩, fun h => ht.2 h.2⟩
    · exact ⟨.inr (Finset.mem_filter.mp hl), fun h => hd h.2⟩

def Meets (owner : ν → Option π) (g : Graph ν κ) (l : ν × ν × κ) (c : Change ν κ π) : Prop :=
  (owner l.1 = some c.path → l.1 ∈ g.nodes) ∧ (owner l.2.1 = some c.path → l.2.1 ∈ g.nodes)

theorem of_mem_apply_links {g : Graph ν κ} {c : Change ν κ π} {l : ν × ν × κ}
    (h : l ∈ (apply owner g c).links) (hw : l ∉ c.links) :
    l ∈ g.links ∧ (Meets owner g l c → ¬ Takes owner l c) := by
  cases c with
  | drop p =>
    simp only [apply, Finset.mem_filter, Graph.mem_held] at h
    obtain ⟨hl, h1, h2⟩ := h
    refine ⟨hl, ?_⟩
    intro hm ht
    rcases ht with ht | ht
    · exact h1 ⟨hm.1 ht, ht⟩
    · exact h2 ⟨hm.2 ht, ht⟩
  | renew p part kept =>
    simp only [apply, Finset.mem_filter, Finset.mem_union, Graph.mem_held] at h
    obtain ⟨hl | hl, hd⟩ := h
    · refine ⟨hl.1, ?_⟩
      intro hm ht
      rcases ht with ⟨ho, hk⟩ | ⟨ho, hn⟩
      · exact hk (hl.2 ⟨hm.1 ho, ho⟩)
      · exact hn (hd ⟨hm.2 ho, ho⟩)
    · exact absurd (Finset.mem_filter.mpr hl) hw

end Change

open Change

def run (owner : ν → Option π) (g : Graph ν κ) (cs : List (Change ν κ π)) : Graph ν κ :=
  cs.foldl (apply owner) g

def written (cs : List (Change ν κ π)) : List π :=
  cs.filterMap fun
    | .drop _ => none
    | .renew p _ _ => some p

def sweep (owner : ν → Option π) (paths : List π) (g : Graph ν κ) : Graph ν κ where
  nodes := g.nodes
  links := g.links.filter fun l => ∀ p ∈ paths, l.1 ∈ g.held owner p → l.2.1 ∈ g.nodes

variable {owner : ν → Option π} {g : Graph ν κ} {cs : List (Change ν κ π)}

theorem mem_run_nodes {x : ν} : x ∈ (run owner g cs).nodes ↔
    (x ∈ g.nodes ∧ ∀ c ∈ cs, ¬ Clears owner x c) ∨ Standing (Emits x) (Clears owner x) cs :=
  foldl_iff_standing (fun g : Graph ν κ => x ∈ g.nodes) fun _ _ => mem_apply_nodes

theorem mem_run_links_of {l : ν × ν × κ}
    (h : (l ∈ g.links ∧ ∀ c ∈ cs, ¬ Takes owner l c) ∨
      Standing (Puts owner l) (Takes owner l) cs) : l ∈ (run owner g cs).links :=
  foldl_of_standing (fun g : Graph ν κ => l ∈ g.links) (fun _ _ => mem_apply_links_of) h

/-- Where a link at the end comes from. Only the change of its own part removes a node, so what a
change could remove of an old link is there when the change comes. -/
theorem of_mem_run_links {l : ν × ν × κ} (hpaths : (cs.map Change.path).Nodup)
    (hmeets : l ∈ g.links → ∀ c ∈ cs, Meets owner g l c) (h : l ∈ (run owner g cs).links) :
    (l ∈ g.links ∧ ∀ c ∈ cs, ¬ Takes owner l c) ∨ ∃ c ∈ cs, l ∈ c.links := by
  induction cs generalizing g with
  | nil => exact .inl ⟨h, by simp⟩
  | cons c cs ih =>
    rw [List.map_cons, List.nodup_cons] at hpaths
    by_cases hw : l ∈ c.links
    · exact .inr ⟨c, List.mem_cons_self, hw⟩
    have hmeets' : l ∈ (apply owner g c).links → ∀ d ∈ cs, Meets owner (apply owner g c) l d := by
      intro hl d hd
      obtain ⟨hl0, -⟩ := of_mem_apply_links hl hw
      obtain ⟨hm1, hm2⟩ := hmeets hl0 d (List.mem_cons_of_mem c hd)
      have hne : c.path ≠ d.path := fun he => hpaths.1 (he ▸ List.mem_map_of_mem hd)
      have hstay : ∀ x, owner x = some d.path → x ∈ g.nodes → x ∈ (apply owner g c).nodes := by
        intro x ho hx
        apply mem_apply_nodes.mpr
        refine .inl ⟨hx, ?_⟩
        intro hc
        exact hne (Option.some.inj (hc.symm.trans ho))
      exact ⟨fun ho => hstay _ ho (hm1 ho), fun ho => hstay _ ho (hm2 ho)⟩
    rcases ih hpaths.2 hmeets' h with ⟨hl, hall⟩ | ⟨d, hd, hwd⟩
    · obtain ⟨hl0, htake⟩ := of_mem_apply_links hl hw
      refine .inl ⟨hl0, List.forall_mem_cons.mpr ⟨?_, hall⟩⟩
      exact htake (hmeets hl0 c List.mem_cons_self)
    · exact .inr ⟨d, List.mem_cons_of_mem c hd, hwd⟩

/-- What the changes must do for `old` to become `new`. -/
@[mk_iff]
structure Renewal (owner : ν → Option π) (old new : Graph ν κ) (cs : List (Change ν κ π)) :
    Prop where
  /-- A node that goes is cleared. -/
  gone : ∀ x ∈ old.nodes, x ∉ new.nodes → ∃ c ∈ cs, Clears owner x c
  /-- A node that is to be there was there and is not cleared, or is emitted and not cleared
  again. -/
  stands : ∀ x ∈ new.nodes, (x ∈ old.nodes ∧ ∀ c ∈ cs, ¬ Clears owner x c) ∨
    Standing (Emits x) (Clears owner x) cs
  /-- A link that goes while its ends stay is taken. -/
  taken : ∀ l ∈ old.links, l ∉ new.links → l.1 ∈ new.nodes → l.2.1 ∈ new.nodes →
    ∃ c ∈ cs, Takes owner l c
  /-- A link that is to be there was there and is not taken, or is put and not taken again. -/
  derived : ∀ l ∈ new.links, (l ∈ old.links ∧ ∀ c ∈ cs, ¬ Takes owner l c) ∨
    Standing (Puts owner l) (Takes owner l) cs
  /-- A link that is written and is not to be there hangs from a part given anew. -/
  swept : ∀ c ∈ cs, ∀ l ∈ c.links, l ∉ new.links →
    l.1 ∈ new.nodes ∧ ∃ p ∈ written cs, owner l.1 = some p

instance (old new : Graph ν κ) : Decidable (Renewal owner old new cs) :=
  @decidable_of_iff' _ _ (renewal_iff owner old new cs)
    (@instDecidableAnd _ _ inferInstance (@instDecidableAnd _ _ inferInstance
      (@instDecidableAnd _ _ inferInstance (@instDecidableAnd _ _ inferInstance inferInstance))))

namespace Renewal

variable {old : Graph ν κ} {parts : List (Graph ν κ)}

/-- Every part given anew is one of the parts, and keeps only nodes it emits. -/
def FromParts (parts : List (Graph ν κ)) (cs : List (Change ν κ π)) : Prop :=
  ∀ p part kept, Change.renew p part kept ∈ cs → part ∈ parts ∧ kept ⊆ part.nodes

variable (hparts : FromParts parts cs) (h : Renewal owner old (assemble parts) cs)

include hparts

omit [DecidableEq π] in
theorem takes_of_gone {c : Change ν κ π} (hc : c ∈ cs) {l : ν × ν × κ} {x : ν}
    (hx : x = l.1 ∨ x = l.2.1) (hn : x ∉ (assemble parts).nodes) (hclear : Clears owner x c) :
    Takes owner l c := by
  cases c with
  | drop p =>
    rcases hx with rfl | rfl
    · exact .inl hclear
    · exact .inr hclear
  | renew p part kept =>
    obtain ⟨hp, hk⟩ := hparts p part kept hc
    have hpart : x ∉ part.nodes := fun hm => hn (mem_assemble_nodes.mpr ⟨part, hp, hm⟩)
    rcases hx with rfl | rfl
    · exact .inl ⟨hclear, fun hm => hpart (hk hm)⟩
    · exact .inr ⟨hclear, hpart⟩

include h

theorem mem_nodes_iff {x : ν} :
    x ∈ (run owner old cs).nodes ↔ x ∈ (assemble parts).nodes := by
  rw [mem_run_nodes]
  refine ⟨?_, h.stands x⟩
  intro hx
  rcases hx with ⟨hx, hall⟩ | hst
  · by_contra hn
    obtain ⟨c, hc, hclear⟩ := h.gone x hx hn
    exact hall c hc hclear
  · obtain ⟨c, hc, he⟩ := hst.exists_puts
    cases c with
    | drop p => exact he.elim
    | renew p part kept => exact mem_assemble_nodes.mpr ⟨part, (hparts p part kept hc).1, he⟩

theorem mem_links_iff (hold : old.Closed) (hpaths : (cs.map Change.path).Nodup) {l : ν × ν × κ} :
    l ∈ (sweep owner (written cs) (run owner old cs)).links ↔ l ∈ (assemble parts).links := by
  have hnodes : ∀ x, x ∈ (run owner old cs).nodes ↔ x ∈ (assemble parts).nodes :=
    fun x => mem_nodes_iff hparts h
  simp only [sweep, Finset.mem_filter, Graph.mem_held, hnodes]
  constructor
  · intro ⟨hl, hsweep⟩
    have hmeets : l ∈ old.links → ∀ c ∈ cs, Meets owner old l c :=
      fun hm c _ => ⟨fun _ => (hold l hm).1, fun _ => (hold l hm).2⟩
    by_contra hn
    rcases of_mem_run_links hpaths hmeets hl with ⟨ho, hall⟩ | ⟨c, hc, hw⟩
    · have hends : ∀ x ∈ old.nodes, x = l.1 ∨ x = l.2.1 → x ∈ (assemble parts).nodes := by
        intro x hx hend
        by_contra hx'
        obtain ⟨c, hc, hclear⟩ := h.gone x hx hx'
        exact hall c hc (takes_of_gone hparts hc hend hx' hclear)
      obtain ⟨c, hc, ht⟩ := h.taken l ho hn (hends _ (hold l ho).1 (.inl rfl))
        (hends _ (hold l ho).2 (.inr rfl))
      exact hall c hc ht
    · obtain ⟨hsrc, p, hp, howner⟩ := h.swept c hc l hw hn
      have hdst := hsweep p hp ⟨hsrc, howner⟩
      cases c with
      | drop q => exact Finset.notMem_empty l hw
      | renew q part kept =>
        apply hn
        exact mem_assemble_links.mpr
          ⟨⟨part, (hparts q part kept hc).1, (Finset.mem_filter.mp hw).1⟩, hsrc, hdst⟩
  · intro hl
    refine ⟨mem_run_links_of (h.derived l hl), ?_⟩
    intro _ _ _
    exact (mem_assemble_links.mp hl).2.2

theorem sweep_run_eq (hold : old.Closed) (hpaths : (cs.map Change.path).Nodup) :
    sweep owner (written cs) (run owner old cs) = assemble parts :=
  Graph.ext (fun _ => mem_nodes_iff hparts h) fun _ => mem_links_iff hparts h hold hpaths

end Renewal

end PartedGraph
