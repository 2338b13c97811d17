import Mathlib

/-!
`computeStrongComponents` of pkg/kernel/lib/util/graph.dart, Dijkstra's path-based algorithm. The
vertices that have a number but no component are on one stack, and the candidates are those of
them from which a component may start: a vertex on the stack reaches exactly what stands above the
last candidate before it. A component is closed when the search of its candidate ends.
-/

namespace DartSdk.StrongComponents

open Relation List

structure Graph (V : Type) where
  vertices : List V
  neighborsOf : V → List V

/-- The variables of the search. Both stacks start with their last element. -/
structure State (V : Type) where
  result : List (List V) := []
  count : ℕ := 0
  preorderNumbers : V → Option ℕ := fun _ => none
  unassigned : List V := []
  candidates : List V := []
  assigned : List V := []

abbrev Graph.Reaches {V : Type} (g : Graph V) : V → V → Prop :=
  ReflTransGen fun u w => w ∈ g.neighborsOf u

variable {V : Type}

section

variable [DecidableEq V]

namespace State

variable (s : State V)

def push (vertex : V) : State V :=
  { s with
    count := s.count + 1
    preorderNumbers := Function.update s.preorderNumbers vertex (some s.count)
    unassigned := vertex :: s.unassigned
    candidates := vertex :: s.candidates }

/-- Pops candidates until the last one has no greater number; there is none if the list ends. -/
def collapse (number : ℕ) : List V → Option (List V)
  | [] => none
  | last :: rest => do
    if number < (← s.preorderNumbers last) then collapse number rest else some (last :: rest)

/-- Pops vertices until `vertex` has been popped. -/
def popComponent (vertex : V) : List V → Option (List V × List V)
  | [] => none
  | top :: rest =>
    if top = vertex then some ([top], rest)
    else (popComponent vertex rest).map fun (component, rest) => (top :: component, rest)

/-- Step 4 of the search. -/
def assign (vertex : V) : Option (State V) :=
  match s.candidates with
  | [] => none
  | last :: rest =>
    if last = vertex then
      (popComponent vertex s.unassigned).map fun (component, unassigned) =>
        { s with
          result := s.result ++ [component]
          unassigned := unassigned
          candidates := rest
          assigned := s.assigned ++ component }
    else some s

/-- Step 3 of the search, for one neighbor. -/
def visit (search : V → State V → Option (State V)) (neighbor : V) : Option (State V) :=
  match s.preorderNumbers neighbor with
  | none => search neighbor s
  | some number =>
    if neighbor ∈ s.assigned then some s
    else (s.collapse number s.candidates).map fun candidates => { s with candidates := candidates }

end State

namespace Graph

variable (g : Graph V)

/-- The search, which gives nothing when an operation throws or the recursion is too deep. -/
def recursivelySearch : ℕ → V → State V → Option (State V)
  | 0, _, _ => none
  | depth + 1, vertex, s => do
    let s ← (g.neighborsOf vertex).foldlM (State.visit · (recursivelySearch depth)) (s.push vertex)
    s.assign vertex

def computeStrongComponents (depth : ℕ) : Option (List (List V)) := do
  let s ← g.vertices.foldlM (fun s vertex =>
    if s.preorderNumbers vertex = none then g.recursivelySearch depth vertex s else some s) {}
  return s.result

end Graph

end

/-- An edge that leads to an assigned vertex, or down the stack across no candidate. -/
def Joined (num : V → ℕ) (U B A : List V) (u w : V) : Prop :=
  w ∈ A ∨ w ∈ U ∧ ∀ c ∈ B, num w < num c → num u < num c

/-- The invariant of the stacks `U` of unassigned vertices and `B` of candidates, when those of `A`
are assigned and the search of those of `path` has not ended. -/
structure Stacks (g : Graph V) (num : V → ℕ) (path U B A : List V) : Prop where
  sorted : U.Pairwise fun u w => num w < num u
  candidates_sorted : B.Pairwise fun u w => num w < num u
  candidates : B ⊆ U
  path_sublist : path.Sublist U
  disjoint : ∀ u ∈ U, u ∉ A
  closed : ∀ u ∈ A, ∀ w ∈ g.neighborsOf u, w ∈ A
  exists_le : ∀ u ∈ U, ∃ c ∈ B, num c ≤ num u
  connected : ∀ u ∈ U, ∀ w ∈ U, (∀ c ∈ B, num c ≤ num u → num c ≤ num w) → g.Reaches u w
  edges : ∀ u ∈ U, u ∉ path → ∀ w ∈ g.neighborsOf u, Joined num U B A u w

variable {g : Graph V} {f f' : V → ℕ} {path U B A X : List V} {u v w : V}

namespace Stacks

lemma nodup (h : Stacks g f path U B A) : U.Nodup :=
  h.sorted.imp fun hlt heq => (heq ▸ hlt).false

lemma closed_reaches (h : Stacks g f path U B A) (hu : u ∈ A) (huw : g.Reaches u w) :
    w ∈ A := by
  induction huw with
  | refl => exact hu
  | tail _ hedge ih => exact h.closed _ ih _ hedge

lemma congr (h : Stacks g f path U B A) (hnum : ∀ u ∈ U, f' u = f u) :
    Stacks g f' path U B A := by
  have hB := h.candidates
  refine { h with
    sorted := h.sorted.imp_of_mem (by grind)
    candidates_sorted := h.candidates_sorted.imp_of_mem (by grind)
    exists_le := fun u hu => ?_
    connected := fun u hu w hw hc => h.connected u hu w hw (by grind)
    edges := fun u hu hpath w hw => ?_ }
  · have := h.exists_le u hu
    grind
  · have := h.edges u hu hpath w hw
    grind [Joined]

lemma push (h : Stacks g f path U B A) (hv : v ∉ A) (hlt : ∀ u ∈ U, f u < f v)
    (hreaches : ∀ u ∈ U, g.Reaches u v) : Stacks g f (v :: path) (v :: U) (v :: B) A := by
  have hB := h.candidates
  refine ⟨pairwise_cons.mpr ⟨hlt, h.sorted⟩,
    pairwise_cons.mpr ⟨fun c hc => hlt c (hB hc), h.candidates_sorted⟩, cons_subset_cons v hB,
    h.path_sublist.cons_cons v, forall_mem_cons.mpr ⟨hv, h.disjoint⟩, h.closed, ?_,
    fun u hu w hw hcand => ?_, fun u hu hpath w hw => ?_⟩
  · have := h.exists_le
    grind
  · rcases mem_cons.mp hw with rfl | hw'
    · rcases mem_cons.mp hu with rfl | hu
      · exact .refl
      · exact hreaches u hu
    rcases mem_cons.mp hu with rfl | hu
    · exact absurd (hcand u mem_cons_self le_rfl) (hlt w hw').not_ge
    · exact h.connected u hu w hw' fun c hc => hcand c (mem_cons_of_mem _ hc)
  · have := h.edges u
    grind [Joined]

/-- Popping the candidates above the target of an edge of the last vertex of the path. -/
lemma collapse {l : List V} (h : Stacks g f path U B A) (hv : v ∈ U)
    (htop : ∀ c ∈ B, f c ≤ f v) (hedge : w ∈ g.neighborsOf v) (hw : w ∈ U) (hl : l <:+ B)
    (hmem : ∀ c ∈ B, c ∈ l ↔ f c ≤ f w) : Stacks g f path U l A := by
  have hexists := h.exists_le
  have hsubset := hl.subset
  refine { h with
    candidates := fun c hc => h.candidates (hsubset hc)
    candidates_sorted := h.candidates_sorted.sublist hl.sublist
    exists_le := by grind
    connected := fun a ha d hd hcand => ?_
    edges := fun u hu hpath x hx => ?_ }
  · by_cases hdirect : ∀ c ∈ B, f c ≤ f a → f c ≤ f d
    · exact h.connected a ha d hd hdirect
    -- A candidate between them was popped, so the way leads through the edge.
    have hav := h.connected a ha v hv fun c hc _ => htop c hc
    exact (hav.tail hedge).trans (h.connected w hw d hd (by grind))
  · have := h.edges u hu hpath x hx
    grind [Joined]

/-- The search of a vertex ends. -/
lemma leave (h : Stacks g f (v :: path) U B A)
    (hjoined : ∀ w ∈ g.neighborsOf v, Joined f U B A v w) : Stacks g f path U B A := by
  refine { h with
    path_sublist := (sublist_cons_self v path).trans h.path_sublist
    edges := fun u hu hpath => ?_ }
  by_cases huv : u = v
  · exact huv ▸ hjoined
  · exact h.edges u hu (not_mem_cons_of_ne_of_not_mem huv hpath)

/-- What stands above the last candidate when its search ends is a component. -/
lemma component (h : Stacks g f path (X ++ v :: U) (v :: B) A) (hpath : path.Sublist U) :
    Stacks g f path U B (A ++ (X ++ [v])) ∧
      ∀ u ∈ X ++ [v], u ∉ A ∧ ∀ w ∈ X ++ [v], g.Reaches u w := by
  obtain ⟨-, ⟨hvU, hU⟩, hXv⟩ := by simpa only [pairwise_append, pairwise_cons] using h.sorted
  obtain ⟨hvB, hB⟩ := pairwise_cons.mp h.candidates_sorted
  have hX : ∀ u ∈ X ++ [v], f v ≤ f u := by grind
  have hsubset := hpath.subset
  have hcandidates := h.candidates
  refine ⟨⟨hU, hB, by grind, hpath, ?_, ?_, ?_, fun a ha d hd hcand => ?_, ?_⟩, ?_⟩
  · have := h.disjoint
    grind
  · have := h.closed
    have := h.edges
    grind [Joined]
  · intro u hu
    obtain ⟨c, hc, hcu⟩ := h.exists_le u (by simp [hu])
    have := hvU u hu
    exact ⟨c, by grind, hcu⟩
  · exact h.connected a (by simp [ha]) d (by simp [hd]) (by grind)
  · have := h.edges
    grind [Joined]
  · refine fun u hu => ⟨h.disjoint u (by grind), fun w hw => ?_⟩
    exact h.connected u (by grind) w (by grind) (by grind)

end Stacks

/-- The preorder number of a vertex that has one. -/
abbrev State.num (s : State V) (u : V) : ℕ := (s.preorderNumbers u).getD 0

abbrev State.Joins (s : State V) : V → V → Prop :=
  Joined s.num s.unassigned s.candidates s.assigned

/-- The invariant of the search. No earlier component reaches a later one. -/
structure Invariant (g : Graph V) (path : List V) (s : State V) : Prop extends
    Stacks g s.num path s.unassigned s.candidates s.assigned where
  visited : ∀ u, s.preorderNumbers u ≠ none ↔ u ∈ s.unassigned ∨ u ∈ s.assigned
  lt_count : ∀ u ∈ s.unassigned, s.num u < s.count
  flatten : s.assigned = s.result.flatten
  nodup : s.assigned.Nodup
  components : ∀ C ∈ s.result, ∀ u ∈ C, ∀ w ∈ C, g.Reaches u w
  order : s.result.Pairwise fun C D => ∀ u ∈ C, ∀ w ∈ D, ¬g.Reaches u w

/-- A part of the search leads from `s` to `s'`. -/
structure Searched (g : Graph V) (path : List V) (s s' : State V) : Prop where
  invariant : Invariant g path s'
  numbers : ∀ u, s.preorderNumbers u ≠ none → s'.preorderNumbers u = s.preorderNumbers u
  unassigned : s.unassigned <:+ s'.unassigned
  assigned : s.assigned ⊆ s'.assigned
  candidates : s'.candidates <:+ s.candidates

variable {s s' : State V}

lemma Invariant.ne_none (h : Invariant g path s) (hu : u ∈ s.unassigned) :
    s.preorderNumbers u ≠ none := (h.visited u).mpr (.inl hu)

lemma Searched.num_eq (hs : Searched g path s s') (h : Invariant g path s)
    (hu : u ∈ s.unassigned) : s'.num u = s.num u := by
  rw [State.num, hs.numbers u (h.ne_none hu)]

lemma Searched.trans {s'' : State V} (h : Searched g path s s')
    (h' : Searched g path s' s'') : Searched g path s s'' where
  invariant := h'.invariant
  numbers u hu := by
    have hnum := h.numbers u hu
    rw [h'.numbers u (hnum ▸ hu), hnum]
  unassigned := h.unassigned.trans h'.unassigned
  assigned := Subset.trans h.assigned h'.assigned
  candidates := h'.candidates.trans h.candidates

/-- An edge of an unassigned vertex stays joined. -/
lemma Searched.joined (hs : Searched g path s s') (h : Invariant g path s)
    (hu : u ∈ s.unassigned) (hj : s.Joins u w) : s'.Joins u w := by
  refine hj.imp (hs.assigned ·) fun ⟨hw, hall⟩ => ⟨hs.unassigned.subset hw, fun c hc => ?_⟩
  have hc := hs.candidates.subset hc
  rw [hs.num_eq h hw, hs.num_eq h (h.candidates hc), hs.num_eq h hu]
  exact hall c hc

lemma collapse_spec {number : ℕ} {l : List V} (hnum : ∀ c ∈ l, s.preorderNumbers c ≠ none)
    (hsort : l.Pairwise fun u w => s.num w < s.num u) (h : ∃ c ∈ l, s.num c ≤ number) :
    ∃ l', s.collapse number l = some l' ∧ l' <:+ l ∧ ∀ c ∈ l, c ∈ l' ↔ s.num c ≤ number := by
  induction l with
  | nil => simp at h
  | cons last rest ih =>
    obtain ⟨hlast, hrest⟩ := pairwise_cons.mp hsort
    obtain ⟨m, hm⟩ := Option.ne_none_iff_exists'.mp (hnum last mem_cons_self)
    have hnumlast : s.num last = m := by rw [State.num, hm]; rfl
    rw [State.collapse, hm, Option.bind_eq_bind, Option.bind_some]
    by_cases hlt : number < m
    · obtain ⟨c, hc, hle⟩ := h
      have hc : c ∈ rest := (mem_cons.mp hc).resolve_left (by rintro rfl; omega)
      obtain ⟨l', hl', hsuf, hmem⟩ :=
        ih (fun c hc => hnum c (mem_cons_of_mem _ hc)) hrest ⟨c, hc, hle⟩
      refine ⟨l', by rw [if_pos hlt, hl'], hsuf.trans (suffix_cons _ _), ?_⟩
      refine forall_mem_cons.mpr ⟨iff_of_false (fun hmem => ?_) (by omega), hmem⟩
      exact (hlast last (hsuf.subset hmem)).false
    · refine ⟨_, if_neg hlt, suffix_rfl, fun c hc => iff_of_true hc ?_⟩
      rcases mem_cons.mp hc with rfl | hc
      · omega
      · have := hlast c hc
        omega

variable [DecidableEq V]

lemma popComponent_append (hv : v ∉ X) :
    State.popComponent v (X ++ v :: U) = some (X ++ [v], U) := by
  induction X with
  | nil => simp [State.popComponent]
  | cons x X ih =>
    obtain ⟨hne, hv⟩ := not_or.mp (mem_cons.not.mp hv)
    rw [cons_append, State.popComponent, if_neg (Ne.symm hne), ih hv]
    rfl

lemma Invariant.push (h : Invariant g path s) (hv : s.preorderNumbers v = none)
    (hreaches : ∀ u ∈ s.unassigned, g.Reaches u v) : Invariant g (v :: path) (s.push v) := by
  have hne : ∀ u ∈ s.unassigned, u ≠ v := fun u hu heq => h.ne_none hu (heq ▸ hv)
  have hnum : ∀ u ∈ s.unassigned, (s.push v).num u = s.num u :=
    fun u hu => by simp [State.num, State.push, hne u hu]
  have hself : (s.push v).num v = s.count := by simp [State.num, State.push]
  refine { h with
    toStacks := (h.toStacks.congr hnum).push (fun hmem => (h.visited v).mpr (.inr hmem) hv)
      (fun u hu => ?_) hreaches
    visited := fun u => ?_
    lt_count := forall_mem_cons.mpr ⟨hself.trans_lt (Nat.lt_succ_self _), fun u hu => ?_⟩ }
  · rw [hnum u hu, hself]
    exact h.lt_count u hu
  · by_cases huv : u = v
    · simp [huv, State.push]
    · simp [huv, State.push, h.visited u]
  · exact (hnum u hu).trans_lt ((h.lt_count u hu).trans (Nat.lt_succ_self _))

lemma assign_spec (h : Invariant g path s) (hsplit : s.unassigned = X ++ v :: U)
    (hpath : path.Sublist U) (hcandidates : s.candidates <:+ v :: B) :
    ∃ s', s.assign v = some s' ∧ Invariant g path s' ∧ s'.candidates <:+ B ∧
      U <:+ s'.unassigned ∧ s.assigned ⊆ s'.assigned ∧ s'.preorderNumbers = s.preorderNumbers := by
  obtain ⟨c, hc, -⟩ := h.exists_le v (hsplit ▸ mem_append_right X mem_cons_self)
  unfold State.assign
  cases hcand : s.candidates with
  | nil => simp [hcand] at hc
  | cons last rest =>
    dsimp only
    rw [hcand] at hcandidates
    split_ifs with hlast
    · subst hlast
      have hnodup := hsplit ▸ h.toStacks.nodup
      obtain ⟨hstacks, hcomponent⟩ := Stacks.component (hsplit ▸ hcand ▸ h.toStacks) hpath
      rw [hsplit, popComponent_append (by grind)]
      refine ⟨_, rfl, ⟨hstacks, fun u => ?_, fun u hu => h.lt_count u (by simp [hsplit, hu]),
        by simp [h.flatten], nodup_append.mpr ⟨h.nodup, ?_, by grind⟩, ?_, ?_⟩, ?_, suffix_rfl,
        subset_append_left _ _, rfl⟩
      · have := h.visited u
        grind
      · exact hnodup.sublist (((nil_sublist U).cons_cons last).append_left X)
      · refine forall_mem_append.mpr ⟨h.components, forall_mem_singleton.mpr ?_⟩
        exact fun u hu => (hcomponent u hu).2
      · refine pairwise_append.mpr ⟨h.order, pairwise_singleton _ _,
          fun C hC D hD a ha d hd had => ?_⟩
        have ha : a ∈ s.assigned := h.flatten ▸ mem_flatten.mpr ⟨C, hC, ha⟩
        rw [mem_singleton.mp hD] at hd
        exact (hcomponent d hd).1 (h.closed_reaches ha had)
      · rcases suffix_cons_iff.mp hcandidates with heq | hsuf
        · exact (cons.inj heq).2 ▸ suffix_rfl
        · exact (suffix_cons last rest).trans hsuf
    · refine ⟨s, rfl, h, ?_, hsplit ▸ (suffix_cons v U).trans (suffix_append X _),
        Subset.refl _, rfl⟩
      rw [hcand]
      exact (suffix_cons_iff.mp hcandidates).resolve_left fun heq => hlast (cons.inj heq).1

section

variable {search : V → State V → Option (State V)}
  (hsearch : ∀ w s, Invariant g path s → s.preorderNumbers w = none →
    (∀ u ∈ s.unassigned, g.Reaches u w) →
      ∃ s', search w s = some s' ∧ Searched g path s s' ∧ s'.preorderNumbers w ≠ none)
include hsearch

lemma visit_spec (h : Invariant g path s) (hv : v ∈ s.unassigned)
    (htop : ∀ c ∈ s.candidates, s.num c ≤ s.num v) (hedge : w ∈ g.neighborsOf v) :
    ∃ s', s.visit search w = some s' ∧ Searched g path s s' ∧ s'.Joins v w := by
  unfold State.visit
  cases hw : s.preorderNumbers w with
  | none =>
    obtain ⟨s', hs', hsearched, hvisited⟩ := hsearch w s h hw fun u hu =>
      (h.connected u hu v hv fun c hc _ => htop c hc).tail hedge
    refine ⟨s', hs', hsearched, ((hsearched.invariant.visited w).mp hvisited).symm.imp_right ?_⟩
    refine fun hw' => ⟨hw', fun c hc hlt => ?_⟩
    -- A new vertex is above the last vertex of the path, and no candidate is.
    obtain ⟨X, hX⟩ := hsearched.unassigned
    have hsort := hX ▸ hsearched.invariant.sorted
    have hwX := (mem_append.mp (hX ▸ hw')).resolve_right fun hwU => h.ne_none hwU hw
    exact ((pairwise_append.mp hsort).2.2 w hwX v hv).trans hlt
  | some number =>
    dsimp only
    split_ifs with hassigned
    · exact ⟨s, rfl, ⟨h, fun _ _ => rfl, suffix_rfl, Subset.refl _, suffix_rfl⟩, .inl hassigned⟩
    have hwU := ((h.visited w).mp (by simp [hw])).resolve_right hassigned
    have hnumber : s.num w = number := by rw [State.num, hw]; rfl
    obtain ⟨l, hl, hsuf, hmem⟩ := collapse_spec (fun c hc => h.ne_none (h.candidates hc))
      h.candidates_sorted (h.exists_le w hwU)
    rw [← hnumber, hl]
    refine ⟨_, rfl, ⟨?_, fun _ _ => rfl, suffix_rfl, Subset.refl _, hsuf⟩,
      .inr ⟨hwU, fun c hc hlt => absurd ((hmem c (hsuf.subset hc)).mp hc) hlt.not_ge⟩⟩
    exact { h with toStacks := h.toStacks.collapse hv htop hedge hwU hsuf hmem }

lemma neighbors_spec {neighbors : List V} (h : Invariant g path s) (hv : v ∈ s.unassigned)
    (htop : ∀ c ∈ s.candidates, s.num c ≤ s.num v) (hedges : neighbors ⊆ g.neighborsOf v) :
    ∃ s', neighbors.foldlM (State.visit · search) s = some s' ∧ Searched g path s s' ∧
      ∀ w ∈ neighbors, s'.Joins v w := by
  induction neighbors generalizing s with
  | nil => exact ⟨s, rfl, ⟨h, fun _ _ => rfl, suffix_rfl, Subset.refl _, suffix_rfl⟩, by simp⟩
  | cons w rest ih =>
    obtain ⟨hw, hrest⟩ := cons_subset.mp hedges
    obtain ⟨s1, hs1, h1, hjoined⟩ := visit_spec hsearch h hv htop hw
    have hv1 := h1.unassigned.subset hv
    have htop1 : ∀ c ∈ s1.candidates, s1.num c ≤ s1.num v := by
      intro c hc
      have hc := h1.candidates.subset hc
      rw [h1.num_eq h (h.candidates hc), h1.num_eq h hv]
      exact htop c hc
    obtain ⟨s2, hs2, h2, hall⟩ := ih h1.invariant hv1 htop1 hrest
    refine ⟨s2, ?_, h1.trans h2, forall_mem_cons.mpr ⟨h2.joined h1.invariant hv1 hjoined, hall⟩⟩
    rw [foldlM_cons, hs1]
    exact hs2

end

variable [Fintype V]

/-- The path has no duplicates, so that the recursion is no deeper than there are vertices. -/
lemma recursivelySearch_spec {depth : ℕ} (hdepth : Fintype.card V ≤ path.length + depth)
    (h : Invariant g path s) (hv : s.preorderNumbers v = none)
    (hreaches : ∀ u ∈ s.unassigned, g.Reaches u v) :
    ∃ s', g.recursivelySearch depth v s = some s' ∧ Searched g path s s' ∧
      s'.preorderNumbers v ≠ none := by
  induction depth generalizing path v s with
  | zero =>
    have hnodup : (v :: path).Nodup := nodup_cons.mpr
      ⟨fun hmem => h.ne_none (h.path_sublist.subset hmem) hv,
        h.toStacks.nodup.sublist h.path_sublist⟩
    exact absurd hdepth (Nat.not_le.mpr hnodup.length_le_card)
  | succ depth ih =>
    have hpush := h.push hv hreaches
    have htop : ∀ c ∈ (s.push v).candidates, (s.push v).num c ≤ (s.push v).num v :=
      forall_mem_cons.mpr ⟨le_rfl, fun c hc => (rel_of_pairwise_cons hpush.candidates_sorted hc).le⟩
    obtain ⟨s1, hs1, h1, hjoined⟩ := neighbors_spec
      (fun w s h => ih (by rw [length_cons]; omega) h) hpush mem_cons_self htop (Subset.refl _)
    obtain ⟨X, hX⟩ := h1.unassigned
    obtain ⟨s', hs', h', hcand, hU, hA, hnumbers⟩ := assign_spec
      { h1.invariant with toStacks := h1.invariant.toStacks.leave hjoined } hX.symm
      h.path_sublist h1.candidates
    refine ⟨s', ?_, ⟨h', fun u hu => ?_, hU, Subset.trans h1.assigned hA, hcand⟩, ?_⟩
    · rw [Graph.recursivelySearch, hs1]
      exact hs'
    · have hpushed : (s.push v).preorderNumbers u = s.preorderNumbers u :=
        Function.update_of_ne (fun heq : u = v => hu (heq ▸ hv)) _ _
      rw [hnumbers, h1.numbers u (hpushed ▸ hu), hpushed]
    · have hnew : (s.push v).preorderNumbers v ≠ none := by simp [State.push]
      rwa [hnumbers, h1.numbers v hnew]

lemma vertices_spec {depth : ℕ} (hdepth : Fintype.card V ≤ depth) {vertices : List V}
    (h : Invariant g [] s) (hs : s.unassigned = []) :
    ∃ s', vertices.foldlM (fun s vertex => if s.preorderNumbers vertex = none then
        g.recursivelySearch depth vertex s else some s) s = some s' ∧
      Invariant g [] s' ∧ s.assigned ⊆ s'.assigned ∧ ∀ v ∈ vertices, v ∈ s'.assigned := by
  induction vertices generalizing s with
  | nil => exact ⟨s, rfl, h, Subset.refl _, by simp⟩
  | cons v rest ih =>
    have hone : ∃ s1, (if s.preorderNumbers v = none then g.recursivelySearch depth v s
        else some s) = some s1 ∧ Invariant g [] s1 ∧ s1.unassigned = [] ∧
          s.assigned ⊆ s1.assigned ∧ v ∈ s1.assigned := by
      split_ifs with hv
      · obtain ⟨s1, hs1, h1, hvisited⟩ :=
          recursivelySearch_spec (by simpa using hdepth) h hv (by simp [hs])
        have hemp : s1.unassigned = [] := by
          refine eq_nil_iff_forall_not_mem.mpr fun u hu => ?_
          obtain ⟨c, hc, -⟩ := h1.invariant.exists_le u hu
          simpa [hs] using h.candidates (h1.candidates.subset hc)
        refine ⟨s1, hs1, h1.invariant, hemp, h1.assigned, ?_⟩
        exact ((h1.invariant.visited v).mp hvisited).resolve_left (by simp [hemp])
      · exact ⟨s, rfl, h, hs, Subset.refl _, ((h.visited v).mp hv).resolve_left (by simp [hs])⟩
    obtain ⟨s1, hs1, h1, hemp, hA1, hv1⟩ := hone
    obtain ⟨s2, hs2, h2, hA2, hrest⟩ := ih h1 hemp
    refine ⟨s2, ?_, h2, Subset.trans hA1 hA2, forall_mem_cons.mpr ⟨hA2 hv1, hrest⟩⟩
    rw [foldlM_cons, hs1]
    exact hs2

/-- The strongly connected components of a graph in reverse topological order. -/
structure Graph.IsStrongComponents (g : Graph V) (result : List (List V)) : Prop where
  nodup : result.flatten.Nodup
  mem : ∀ v ∈ g.vertices, ∀ u, g.Reaches v u → u ∈ result.flatten
  mem_iff : ∀ C ∈ result, ∀ u ∈ C, ∀ w, w ∈ C ↔ g.Reaches u w ∧ g.Reaches w u
  order : result.Pairwise fun C D => ∀ u ∈ C, ∀ w ∈ D, ¬g.Reaches u w

theorem computeStrongComponents_spec (g : Graph V) (extra : ℕ) : ∃ result,
    g.computeStrongComponents (Fintype.card V + extra) = some result ∧
      g.IsStrongComponents result := by
  have hstart : Invariant g [] {} := by
    refine ⟨?_, ?_, ?_, rfl, .nil, ?_, .nil⟩
    · constructor <;> simp
    all_goals simp
  obtain ⟨s, hs, h, -, hvertices⟩ := vertices_spec (Nat.le_add_right _ extra) hstart rfl
  refine ⟨s.result, by rw [Graph.computeStrongComponents, hs]; rfl, h.flatten ▸ h.nodup,
    fun v hv u hvu => h.flatten ▸ h.closed_reaches (hvertices v hv) hvu, ?_, h.order⟩
  intro C hC u hu w
  refine ⟨fun hw => ⟨h.components C hC u hu w hw, h.components C hC w hw u hu⟩, ?_⟩
  rintro ⟨huw, hwu⟩
  have hmem : u ∈ s.assigned := h.flatten ▸ mem_flatten.mpr ⟨C, hC, hu⟩
  obtain ⟨D, hD, hw⟩ := mem_flatten.mp (h.flatten ▸ h.closed_reaches hmem huw)
  by_contra hwC
  have hapart : s.result.Pairwise fun C D => ∀ u ∈ C, ∀ w ∈ D,
      ¬(g.Reaches u w ∧ g.Reaches w u) :=
    h.order.imp fun hCD u hu w hw huw => hCD u hu w hw huw.1
  have : Std.Symm fun C D : List V => ∀ u ∈ C, ∀ w ∈ D, ¬(g.Reaches u w ∧ g.Reaches w u) :=
    ⟨fun C D hCD w hw u hu hwu => hCD u hu w hw hwu.symm⟩
  exact hapart.forall hC hD (fun heq => hwC (heq ▸ hw)) u hu w hw ⟨huw, hwu⟩

end DartSdk.StrongComponents
