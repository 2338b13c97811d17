import DartSdk.PortMap

/-!
What every operation keeps of a port map: the open entries of the table are the ports that are open,
with their handlers and states, and the counters are right.
-/

namespace DartSdk.Ports

open Checked LinearProbing List Function Option Int

/-- The open ports, each with its handler and state. -/
abbrev OpenPorts (H : Type) := ℤ → Option (H × PortState)

variable {H I : Type}

/-- An id that `AllocatePort` may return. -/
def unusedId (m : OpenPorts H) (port : ℤ) : Bool := port ≠ 0 ∧ (m port).isNone

lemma portOfDraw_nonneg (draw : ℕ) : 0 ≤ portOfDraw draw := natCast_nonneg _

variable {draws : List ℕ}

lemma unusedId_of_find? {m : OpenPorts H} {port : ℤ}
    (h : (draws.map portOfDraw).find? (unusedId m) = some port) : 0 < port ∧ m port = none := by
  have hunused := List.find?_some h
  obtain ⟨draw, -, rfl⟩ := mem_map.mp (mem_of_find?_eq_some h)
  have hnn := portOfDraw_nonneg draw
  obtain ⟨hne, hnone⟩ : portOfDraw draw ≠ 0 ∧ (m (portOfDraw draw)).isNone := by
    simpa [unusedId] using hunused
  exact ⟨by omega, isNone_iff_eq_none.mp hnone⟩

def isLiveOf [DecidableEq H] (h : H) (e : Entry H) : Bool :=
  e.handler = .handler h ∧ e.state = .kLivePort

/-- The open slots list the open ports, in any order. -/
structure Content [DecidableEq H] (opens : List (Entry H)) (m : OpenPorts H)
    (livePorts : H → ℤ) : Prop where
  distinct : (opens.map Entry.port).Nodup
  lists : ∀ p h st, m p = some (h, st) ↔ ⟨p, .handler h, st⟩ ∈ opens
  live : ∀ h, livePorts h = opens.countP (isLiveOf h)

namespace Content

variable [DecidableEq H] {opens opens' : List (Entry H)} {m : OpenPorts H} {livePorts : H → ℤ}
  {p : ℤ} {h : H} {st : PortState}

section

variable (hc : Content opens m livePorts)

include hc

lemma perm (hperm : opens'.Perm opens) :
    Content opens' m livePorts where
  distinct := (hperm.map _).nodup_iff.mpr hc.distinct
  lists p h st := (hc.lists p h st).trans hperm.mem_iff.symm
  live h := by rw [hperm.countP_eq, hc.live]

lemma port_ne (hopen : ∀ e ∈ opens, e.isOpen = true) (hnone : m p = none) :
    ∀ e ∈ opens, e.port ≠ p := by
  rintro ⟨q, cell, st⟩ he rfl
  obtain ⟨h, hh⟩ := Entry.isOpen_iff.mp (hopen _ he)
  subst hh
  rw [(hc.lists q h st).mpr he] at hnone
  cases hnone

lemma eq_none (hno : ∀ e ∈ opens, e.port ≠ p) : m p = none := by
  cases hm : m p with
  | none => rfl
  | some v => exact absurd rfl (hno _ ((hc.lists p v.1 v.2).mp hm))

lemma insert (hopen : ∀ e ∈ opens, e.isOpen = true) (hnone : m p = none) :
    Content (⟨p, .handler h, .kNewPort⟩ :: opens) (update m p (some (h, .kNewPort)))
      livePorts where
  distinct := by
    rw [map_cons, nodup_cons]
    refine ⟨fun hmem => ?_, hc.distinct⟩
    obtain ⟨e, he, heq⟩ := mem_map.mp hmem
    exact hc.port_ne hopen hnone e he heq
  lists q h' st' := by
    by_cases hq : q = p
    · subst hq
      have hno : (⟨q, .handler h', st'⟩ : Entry H) ∉ opens := fun hmem =>
        hc.port_ne hopen hnone _ hmem rfl
      simp [update_self, hno, eq_comm]
    · rw [update_of_ne hq, hc.lists]
      simp [hq]
  live h' := by
    rw [countP_cons, hc.live]
    simp [isLiveOf]

omit hc in
lemma remove (hc : Content (⟨p, .handler h, st⟩ :: opens) m livePorts) :
    Content opens (update m p none)
      (if st = .kLivePort then decrementLivePorts livePorts h else livePorts) where
  distinct := (nodup_cons.mp hc.distinct).2
  lists q h' st' := by
    have hfresh := (nodup_cons.mp hc.distinct).1
    by_cases hq : q = p
    · subst hq
      rw [update_self]
      refine ⟨fun hno => absurd hno.symm (some_ne_none _), fun hmem => ?_⟩
      exact absurd (mem_map.mpr ⟨_, hmem, rfl⟩) hfresh
    · rw [update_of_ne hq, hc.lists, mem_cons, Entry.mk.injEq]
      simp [hq]
  live h' := by
    have hlive := hc.live h'
    rw [countP_cons] at hlive
    by_cases hst : st = .kLivePort
    · rw [if_pos hst, decrementLivePorts]
      by_cases hh : h' = h
      · subst hh
        rw [if_pos (by simp [isLiveOf, hst])] at hlive
        rw [update_self, hlive]
        omega
      · rw [if_neg (by simp [isLiveOf, Ne.symm hh])] at hlive
        rw [update_of_ne hh, hlive]
        simp
    · rw [if_neg hst, hlive, if_neg (by simp [isLiveOf, hst])]
      simp

omit hc in
lemma setState (hc : Content (⟨p, .handler h, .kNewPort⟩ :: opens) m livePorts) (st : PortState) :
    Content (⟨p, .handler h, st⟩ :: opens) (update m p (some (h, st)))
      (if st = .kLivePort then incrementLivePorts livePorts h else livePorts) where
  distinct := hc.distinct
  lists q h' st' := by
    have hfresh := (nodup_cons.mp hc.distinct).1
    by_cases hq : q = p
    · subst hq
      have hno : (⟨q, .handler h', st'⟩ : Entry H) ∉ opens := fun hmem =>
        hfresh (mem_map.mpr ⟨_, hmem, rfl⟩)
      simp [update_self, hno, eq_comm]
    · rw [update_of_ne hq, hc.lists, mem_cons, Entry.mk.injEq]
      simp [hq]
  live h' := by
    have hlive := hc.live h'
    rw [countP_cons, if_neg (by simp [isLiveOf])] at hlive
    rw [countP_cons]
    by_cases hst : st = .kLivePort
    · rw [if_pos hst, incrementLivePorts]
      by_cases hh : h' = h
      · subst hh
        rw [if_pos (by simp [isLiveOf, hst]), update_self, hlive]
        omega
      · rw [if_neg (by simp [isLiveOf, Ne.symm hh]), update_of_ne hh, hlive]
    · rw [if_neg hst, hlive, if_neg (by simp [isLiveOf, hst])]

lemma ncard_live (h : H) : livePorts h = Set.ncard {p | m p = some (h, .kLivePort)} := by
  have hset : {p | m p = some (h, .kLivePort)} =
      ↑((opens.filter (isLiveOf h)).map Entry.port).toFinset := by
    ext p
    rw [coe_toFinset, Set.mem_ofPred_eq, Set.mem_ofPred_eq, hc.lists]
    constructor
    · intro hmem
      exact mem_map.mpr ⟨_, mem_filter.mpr ⟨hmem, by simp [isLiveOf]⟩, rfl⟩
    · intro hmem
      obtain ⟨⟨q, cell, st⟩, he, rfl⟩ := mem_map.mp hmem
      obtain ⟨hin, hlive⟩ := mem_filter.mp he
      obtain ⟨rfl, rfl⟩ : cell = .handler h ∧ st = .kLivePort := by simpa [isLiveOf] using hlive
      exact hin
  have hnodup : ((opens.filter (isLiveOf h)).map Entry.port).Nodup :=
    hc.distinct.sublist (filter_sublist.map _)
  rw [hset, Set.ncard_coe_finset, toFinset_card_of_nodup hnodup, length_map,
    ← countP_eq_length_filter, hc.live]

lemma live_pos_iff (h : H) : 0 < livePorts h ↔ ∃ p, m p = some (h, .kLivePort) := by
  rw [hc.live, natCast_pos, countP_pos_iff]
  constructor
  · rintro ⟨⟨p, cell, st⟩, he, hlive⟩
    obtain ⟨rfl, rfl⟩ : cell = .handler h ∧ st = .kLivePort := by simpa [isLiveOf] using hlive
    exact ⟨p, (hc.lists p h _).mpr he⟩
  · rintro ⟨p, hp⟩
    exact ⟨_, (hc.lists p h _).mp hp, by simp [isLiveOf]⟩

end

end Content

/-- A map in the middle of an operation. -/
structure Sound [DecidableEq H] (s : PortMap H) (m : OpenPorts H) : Prop where
  capacity : s.capacity = s.map.length
  large : 8 ≤ s.map.length
  quarter : 4 ∣ s.map.length
  layout : Layout s.map
  content : Content (openEntries s.map) m s.livePorts
  used : s.used = (openEntries s.map).length
  deleted : s.deleted = tombstones s.map

/-- A map between two operations. -/
structure Invariant [DecidableEq H] (s : PortMap H) (m : OpenPorts H) : Prop
    extends Sound s m where
  loaded : s.used ≤ (s.capacity / 4 * 3 : ℕ)
  flushed : s.deleted ≤ s.capacity - s.used - s.deleted

lemma isOpen_of_mem_openEntries {map : List (Entry H)} {e : Entry H} (h : e ∈ openEntries map) :
    e.isOpen = true := (mem_filter.mp h).2

section

variable [DecidableEq H] {s : PortMap H} {m : OpenPorts H}

lemma invariant_init : Invariant (init : PortMap H) fun _ => none where
  capacity := rfl
  large := le_refl 8
  quarter := ⟨2, rfl⟩
  layout := layout_replicate kInitialCapacity
  content := {
    distinct := nodup_nil
    lists := fun p h st => by simp [init, openEntries, kInitialCapacity, freeEntry, Entry.isOpen,
      Cell.isNull]
    live := fun h => rfl }
  used := rfl
  deleted := rfl
  loaded := show (0 : ℤ) ≤ (8 / 4 * 3 : ℕ) by decide
  flushed := show (0 : ℤ) ≤ 8 - 0 - 0 by decide

lemma Invariant.exists_free (h : Invariant s m) : ∃ e ∈ s.map, IsFree e := by
  have hcnt := count_slots s.map
  have hpos : 0 < freeSlots s.map := by
    have hused := h.used
    have hdel := h.deleted
    have hloaded := h.loaded
    have hflushed := h.flushed
    have hlarge := h.large
    rw [h.capacity] at hloaded hflushed
    omega
  exact countP_pos_iff.mp hpos

lemma Sound.rehash_spec (h : Sound s m) {newCapacity : ℕ} (hlarge : 8 ≤ newCapacity)
    (hquarter : 4 ∣ newCapacity) (hroom : s.used ≤ (newCapacity / 4 * 3 : ℕ)) :
    ∃ s', rehash s newCapacity = .ok s' ∧ Invariant s' m ∧ s'.livePorts = s.livePorts := by
  have hused := h.used
  obtain ⟨newPorts, hrehash, hlen, hlayout, hperm, hnone⟩ :=
    h.layout.rehash_spec h.capacity
      (show (openEntries s.map).length < newCapacity by omega)
  refine ⟨_, hrehash, ?_, rfl⟩
  exact {
    capacity := hlen.symm
    large := hlen.symm ▸ hlarge
    quarter := hlen.symm ▸ hquarter
    layout := hlayout
    content := h.content.perm hperm
    used := by rw [hperm.length_eq]; exact hused
    deleted := by rw [hnone]; rfl
    loaded := hroom
    flushed := by show (0 : ℤ) ≤ newCapacity - s.used - 0; omega }

lemma Sound.maintainInvariants_spec (h : Sound s m)
    (hload : s.used ≤ (s.capacity / 4 * 3 : ℕ) + 1) :
    ∃ s', maintainInvariants s = .ok s' ∧ Invariant s' m ∧ s'.livePorts = s.livePorts := by
  have hlarge := h.large
  have hquarter := h.quarter
  rw [← h.capacity] at hlarge hquarter
  rw [maintainInvariants]
  split_ifs with hgrow hflush
  · exact h.rehash_spec (by omega) (Dvd.dvd.mul_right hquarter 2) (by omega)
  · exact h.rehash_spec hlarge hquarter (by omega)
  · exact ⟨s, rfl, { h with loaded := by omega, flushed := by omega }, rfl⟩

variable {port : ℤ}

lemma Invariant.findPort_spec (h : Invariant s m) (hsign : 0 ≤ port.tmod s.capacity) :
    (m port = none ∧ findPort s port = .ok (-1)) ∨
      ∃ (i : ℕ) (handler : H) (st : PortState), m port = some (handler, st) ∧
        findPort s port = .ok (i : ℤ) ∧ s.map[i]? = some ⟨port, .handler handler, st⟩ := by
  rcases h.layout.findPort_spec h.capacity h.exists_free hsign with
    ⟨hfind, hno⟩ | ⟨i, ⟨p, cell, st⟩, hfind, hi, hopen, rfl⟩
  · exact .inl ⟨h.content.eq_none hno, hfind⟩
  · obtain ⟨handler, hcell⟩ := Entry.isOpen_iff.mp hopen
    subst hcell
    refine .inr ⟨i, handler, st, ?_, hfind, hi⟩
    exact (h.content.lists p handler st).mpr
      (mem_filter.mpr ⟨mem_of_getElem? hi, hopen⟩)

lemma Invariant.findPort_none (h : Invariant s m) (hsign : 0 ≤ port.tmod s.capacity)
    (hm : m port = none) : findPort s port = .ok (-1) := by
  rcases h.findPort_spec hsign with ⟨-, hfind⟩ | ⟨i, handler, st, hsome, -⟩
  · exact hfind
  · rw [hm] at hsome
    cases hsome

variable {handler : H} {st : PortState}

section

variable (h : Invariant s m)

include h

lemma Invariant.findPort_some (hm : m port = some (handler, st)) :
    ∃ i : ℕ, findPort s port = .ok (i : ℤ) ∧ s.map[i]? = some ⟨port, .handler handler, st⟩ := by
  have hmem := (h.content.lists port handler st).mp hm
  have hpos := (h.layout.shaped _ (mem_filter.mp hmem).1).opened
    (isOpen_of_mem_openEntries hmem)
  rcases h.findPort_spec (tmod_nonneg (s.capacity : ℤ) hpos.le) with
    ⟨hnone, -⟩ | ⟨i, handler', st', hsome, hfind, hi⟩
  · rw [hm] at hnone
    cases hnone
  · rw [hm] at hsome
    cases hsome
    exact ⟨i, hfind, hi⟩

lemma Invariant.drawPort_eq (draws : List ℕ) :
    drawPort s draws = match (draws.map portOfDraw).find? (unusedId m) with
      | some port => .ok port
      | none => .error .diverges := by
  induction draws with
  | nil => rfl
  | cons draw draws ih =>
    rw [drawPort, map_cons]
    by_cases hzero : portOfDraw draw = 0
    · rw [if_pos hzero, ih, List.find?_cons_of_neg (by simp [unusedId, hzero])]
    rw [if_neg hzero]
    cases hm : m (portOfDraw draw) with
    | none =>
      rw [h.findPort_none (tmod_nonneg _ (portOfDraw_nonneg draw)) hm,
        List.find?_cons_of_pos (by simp [unusedId, hzero, hm])]
      rfl
    | some v =>
      obtain ⟨i, hfind, -⟩ := h.findPort_some hm
      rw [hfind, ok_bind, if_pos (natCast_nonneg i), ih,
        List.find?_cons_of_neg (by simp [unusedId, hm])]

lemma Invariant.allocatePort_eq (hdraw : (draws.map portOfDraw).find? (unusedId m) = some port) :
    allocatePort s draws = .ok port := by
  obtain ⟨hpos, hnone⟩ := unusedId_of_find? hdraw
  rw [allocatePort, h.drawPort_eq, hdraw]
  rw [ok_bind, check_of (decide_eq_true (by omega)), ok_bind,
    h.findPort_none (tmod_nonneg _ hpos.le) hnone]
  rfl

lemma Invariant.insert_sound {i : ℕ} {cur : Entry H} (hcur : s.map[i]? = some cur)
    (hzero : cur.port = 0) (hnone : m port = none)
    (hlayout : Layout (s.map.set i ⟨port, .handler handler, .kNewPort⟩)) :
    Sound { s with
      map := s.map.set i ⟨port, .handler handler, .kNewPort⟩
      used := s.used + 1
      deleted := if cur.handler.isDeleted then s.deleted - 1 else s.deleted }
      (update m port (some (handler, .kNewPort))) := by
  obtain ⟨rest, hold, hnew⟩ := exists_rest hcur ⟨port, .handler handler, .kNewPort⟩
  have hclosed := h.layout.isOpen_of_port_eq (mem_of_getElem? hcur) hzero
  have hopens := not_isOpen_of_perm hold hclosed
  have hopens' := isOpen_of_perm hnew rfl
  have hperm := hopens'.trans (hopens.symm.cons _)
  exact {
    capacity := by rw [List.length_set]; exact h.capacity
    large := by rw [List.length_set]; exact h.large
    quarter := by rw [List.length_set]; exact h.quarter
    layout := hlayout
    content := (h.content.insert (fun _ => isOpen_of_mem_openEntries) hnone).perm hperm
    used := by
      rw [hperm.length_eq, length_cons, h.used]
      rfl
    deleted := by
      have hdeleted := h.deleted
      rw [tombstones_of_perm hold] at hdeleted
      rw [tombstones_of_perm hnew]
      cases hdel : cur.handler.isDeleted with
      | true =>
        rw [hdel, if_pos rfl] at hdeleted
        simp only [if_true, Cell.isDeleted, Bool.false_eq_true, if_false]
        omega
      | false =>
        rw [hdel, if_neg Bool.false_ne_true] at hdeleted
        simp only [Cell.isDeleted, Bool.false_eq_true, if_false]
        omega }

lemma Invariant.createPort_spec (handler : H)
    (hdraw : (draws.map portOfDraw).find? (unusedId m) = some port) :
    ∃ s', createPort handler draws s = .ok (s', port) ∧
      Invariant s' (update m port (some (handler, .kNewPort))) := by
  obtain ⟨hpos, hnone⟩ := unusedId_of_find? hdraw
  obtain ⟨e, he, hfree⟩ := h.exists_free
  have hunused : ∃ e ∈ s.map, e.port = 0 :=
    ⟨e, he, (h.layout.shaped e he).unused (by rw [Entry.isOpen, hfree]; rfl)⟩
  obtain ⟨i, cur, hfirst, hcur, hzero, hlayout⟩ := h.layout.insert hunused
    (x := ⟨port, .handler handler, .kNewPort⟩) rfl hpos
  have hclosed := h.layout.isOpen_of_port_eq (mem_of_getElem? hcur) hzero
  have hcell : (cur.handler.isNull || cur.handler.isDeleted) = true := by
    rw [Entry.isOpen, ← Bool.not_or, Bool.not_eq_false'] at hclosed
    exact hclosed
  have hi : (i : ℤ) < s.capacity := by
    have := (List.getElem?_eq_some_iff.mp hcur).1
    rw [h.capacity]
    omega
  obtain ⟨s', hmaintain, hinv, -⟩ :=
    (h.insert_sound hcur hzero hnone hlayout).maintainInvariants_spec
    (by have := h.loaded; dsimp only; omega)
  refine ⟨s', ?_, hinv⟩
  have hfirst' : firstUnused s.map s.capacity port = .ok (i : ℤ) := by rw [h.capacity]; exact hfirst
  rw [createPort, h.allocatePort_eq hdraw, ok_bind,
    h.findPort_none (tmod_nonneg _ hpos.le) hnone, ok_bind, check_of (by decide), ok_bind,
    hfirst', ok_bind, check_of (decide_eq_true (natCast_nonneg i)), ok_bind,
    check_of (decide_eq_true hi), ok_bind, entryAt_of_getElem? hcur, ok_bind,
    check_of (decide_eq_true hzero), ok_bind, check_of hcell, ok_bind, storeAt_of_getElem? hcur,
    ok_bind]
  dsimp only
  rw [hmaintain, ok_bind]

omit h in
lemma Sound.close (h : Sound s m) {i : ℕ} (hi : s.map[i]? = some ⟨port, .handler handler, st⟩) :
    Sound { s with
      map := s.map.set i (Entry.mk port (.handler handler) st).markDeleted
      used := s.used - 1
      deleted := s.deleted + 1
      livePorts := if st = .kLivePort then decrementLivePorts s.livePorts handler
        else s.livePorts } (update m port none) := by
  obtain ⟨rest, hold, hnew⟩ := exists_rest hi (Entry.mk port (.handler handler) st).markDeleted
  have hopens := isOpen_of_perm hold rfl
  have hopens' := not_isOpen_of_perm hnew rfl
  exact {
    capacity := by rw [List.length_set]; exact h.capacity
    large := by rw [List.length_set]; exact h.large
    quarter := by rw [List.length_set]; exact h.quarter
    layout := h.layout.markDeleted i _
    content := (h.content.perm hopens.symm).remove.perm hopens'
    used := by
      have hused := h.used
      rw [hopens.length_eq, length_cons] at hused
      rw [hopens'.length_eq, hused]
      push_cast
      omega
    deleted := by
      rw [tombstones_of_perm hnew, h.deleted, tombstones_of_perm hold]
      rfl }

lemma Invariant.closePort_none (handlers : Handlers H I) (hsign : 0 ≤ port.tmod s.capacity)
    (hm : m port = none) : closePort handlers port s = .ok (s, false, false) := by
  rw [closePort, h.findPort_none hsign hm]
  rfl

lemma Invariant.closePort_some (handlers : Handlers H I) (hm : m port = some (handler, st)) :
    ∃ s', closePort handlers port s = .ok (s', true,
        !decide (0 < s'.livePorts handler) && handlers.ownedByPortMap handler) ∧
      Invariant s' (update m port none) := by
  obtain ⟨i, hfind, hi⟩ := h.findPort_some hm
  have hpos := (h.layout.shaped _ (mem_of_getElem? hi)).opened rfl
  have hlt : (i : ℤ) < s.capacity := by
    have := (List.getElem?_eq_some_iff.mp hi).1
    rw [h.capacity]
    omega
  obtain ⟨s', hmaintain, hinv, hlive⟩ := (h.toSound.close hi).maintainInvariants_spec
    (by have := h.loaded; dsimp only; omega)
  refine ⟨s', ?_, hinv⟩
  rw [closePort, hfind, ok_bind, if_neg (by omega), check_of (decide_eq_true hlt), ok_bind,
    entryAt_of_getElem? hi, ok_bind, check_of (decide_eq_true (by dsimp only at hpos ⊢; omega)),
    ok_bind]
  dsimp only [Cell.deref]
  rw [ok_bind, storeAt_of_getElem? hi, ok_bind, hmaintain, ok_bind]

/-- What is left of the open ports when a handler closes its ports. -/
def withoutHandler (m : OpenPorts H) (handler : H) : OpenPorts H := fun port =>
  (m port).filter fun v => v.1 ≠ handler

/-- The map after the first `i` slots of `ClosePorts`. -/
structure Closing (s : PortMap H) (m : OpenPorts H) (handler : H) (i : ℕ) (t : PortMap H)
    (m' : OpenPorts H) : Prop where
  sound : Sound t m'
  length : t.map.length = s.map.length
  usedLe : t.used ≤ s.used
  without : withoutHandler m' handler = withoutHandler m handler
  closed : ∀ j < i, ∀ e, t.map[j]? = some e → e.handler ≠ .handler handler

omit h in
lemma withoutHandler_update (hm : m port = some (handler, st)) :
    withoutHandler (update m port none) handler = withoutHandler m handler := by
  funext q
  unfold withoutHandler
  by_cases hq : q = port
  · subst hq
    rw [update_self, hm, filter_some, if_neg (by simp)]
    rfl
  · rw [update_of_ne hq]

omit h in
lemma Closing.step {handler : H} {i : ℕ} {t : PortMap H} {m' : OpenPorts H}
    (h : Closing s m handler i t m') (hi : i < s.map.length) :
    ∃ t' m'', closeSlot handler i t = .ok t' ∧ Closing s m handler (i + 1) t' m'' := by
  obtain ⟨⟨port, cell, st⟩, he⟩ : ∃ e, t.map[i]? = some e :=
    ⟨_, List.getElem?_eq_getElem (h.length.symm ▸ hi)⟩
  by_cases hcell : cell = .handler handler
  · subst hcell
    refine ⟨_, update m' port none, ?_, h.sound.close he, ?_, ?_, ?_, ?_⟩
    · rw [closeSlot, entryAt_of_getElem? he, ok_bind, if_pos rfl, storeAt_of_getElem? he, ok_bind]
    · rw [List.length_set, h.length]
    · have := h.usedLe
      dsimp only
      omega
    · have hm' := (h.sound.content.lists port handler st).mpr
        (mem_filter.mpr ⟨mem_of_getElem? he, rfl⟩)
      rw [withoutHandler_update hm', h.without]
    · intro j hj e hje
      rw [List.getElem?_set] at hje
      split_ifs at hje with hsame hin
      · cases hje
        exact nofun
      · exact h.closed j (by omega) e hje
  · refine ⟨t, m', ?_, h.sound, h.length, h.usedLe, h.without, ?_⟩
    · rw [closeSlot, entryAt_of_getElem? he, ok_bind, if_neg hcell]
    · intro j hj e hje
      rcases Nat.lt_succ_iff_lt_or_eq.mp hj with hlt | rfl
      · exact h.closed j hlt e hje
      · rw [he] at hje
        cases hje
        exact hcell

lemma Invariant.closePorts_spec (handler : H) :
    ∃ s', closePorts handler s = .ok s' ∧ Invariant s' (withoutHandler m handler) := by
  obtain ⟨t, hloop, m', hdone⟩ := forUp_spec (closeSlot handler)
    (fun i t => ∃ m', Closing s m handler i t m') s.map.length (s := s)
    ⟨m, h.toSound, rfl, le_refl _, rfl, fun j hj => absurd hj (by omega)⟩ (by
      rintro i hi t ⟨m', ht⟩
      obtain ⟨t', m'', hstep, ht'⟩ := ht.step hi
      exact ⟨t', hstep, m'', ht'⟩)
  -- No open port of the handler is left, so that the map has become the one without it.
  have hnone : withoutHandler m handler = m' := by
    rw [← hdone.without]
    funext q
    cases hq : m' q with
    | none => rw [withoutHandler, hq]; rfl
    | some v =>
      have hmem := (mem_filter.mp ((hdone.sound.content.lists q v.1 v.2).mp hq)).1
      obtain ⟨j, hj⟩ := mem_iff_getElem?.mp hmem
      have hne := hdone.closed j (hdone.length ▸ (List.getElem?_eq_some_iff.mp hj).1) _ hj
      rw [withoutHandler, hq]
      simpa using hne
  have hcap : t.capacity = s.capacity := by
    rw [hdone.sound.capacity, hdone.length, h.capacity]
  obtain ⟨s', hmaintain, hinv, -⟩ := hdone.sound.maintainInvariants_spec (by
    have := h.loaded
    have := hdone.usedLe
    omega)
  refine ⟨s', ?_, hnone ▸ hinv⟩
  rw [closePorts, h.capacity, hloop, ok_bind, hmaintain]

lemma Invariant.setPortState_spec (st : PortState) (hm : m port = some (handler, .kNewPort)) :
    ∃ s', setPortState port st s = .ok s' ∧
      Invariant s' (update m port (some (handler, st))) := by
  obtain ⟨i, hfind, hi⟩ := h.findPort_some hm
  obtain ⟨rest, hold, hnew⟩ := exists_rest hi (⟨port, .handler handler, st⟩ : Entry H)
  have hopens := isOpen_of_perm hold rfl
  have hopens' := isOpen_of_perm hnew rfl
  have hcontent := ((h.content.perm hopens.symm).setState st).perm hopens'
  have hshaped := h.layout.shaped _ (mem_of_getElem? hi)
  have hset : Invariant { s with
      map := s.map.set i ⟨port, .handler handler, st⟩
      livePorts := if st = .kLivePort then incrementLivePorts s.livePorts handler
        else s.livePorts } (update m port (some (handler, st))) := {
    capacity := by rw [List.length_set]; exact h.capacity
    large := by rw [List.length_set]; exact h.large
    quarter := by rw [List.length_set]; exact h.quarter
    layout := h.layout.set i ⟨fun _ => hshaped.opened rfl, nofun⟩
      Bool.false_ne_true fun _ => h.layout.reached i ⟨port, .handler handler, .kNewPort⟩ hi rfl
    content := hcontent
    used := by rw [hopens'.length_eq, h.used, hopens.length_eq]; rfl
    deleted := by rw [tombstones_of_perm hnew, h.deleted, tombstones_of_perm hold]
    loaded := h.loaded
    flushed := h.flushed }
  refine ⟨_, ?_, hset⟩
  rw [setPortState, hfind, ok_bind, check_of (decide_eq_true (natCast_nonneg i)), ok_bind,
    entryAt_of_getElem? hi, ok_bind]
  rw [check_of (decide_eq_true rfl), ok_bind, storeAt_of_getElem? hi, ok_bind]
  split_ifs <;> rfl

end

end

end DartSdk.Ports
