import DartSdk.PortMapInvariant

/-!
Runs of a port map. After every run the map has the ports that are open by the answers it gave, and
a message to a port reaches the handler that opened it.
-/

namespace DartSdk.Ports

open Function

open Checked List

variable {H I : Type} [DecidableEq H]

/-- The open ports after an operation and its answer. -/
def record (m : OpenPorts H) : Operation H → Answer H I → OpenPorts H
  | .createPort handler _, .port port => Function.update m port (some (handler, .kNewPort))
  | .setPortState port state, _ =>
    Function.update m port ((m port).map fun v => (v.1, state))
  | .closePort port, _ => Function.update m port none
  | .closePorts handler, _ => withoutHandler m handler
  | _, _ => m

def openPorts (history : List (Operation H × Answer H I)) : OpenPorts H :=
  history.foldl (fun m entry => record m entry.1 entry.2) fun _ => none

/-- The answers that a finite map from open ports to handlers gives. -/
def Answers (handlers : Handlers H I) (m : OpenPorts H) : Operation H → Answer H I → Prop
  | .createPort _ draws, .port port =>
    (draws.map portOfDraw).find? (unusedId m) = some port ∧ 0 < port ∧ m port = none
  | .setPortState _ _, .done => True
  | .closePort port, .closed wasOpen deletion =>
    wasOpen = (m port).isSome ∧
      (deletion = true ↔ ∃ handler st, m port = some (handler, st) ∧
        handlers.ownedByPortMap handler = true ∧ ∀ q ≠ port, m q ≠ some (handler, .kLivePort))
  | .closePorts _, .done => True
  | .postMessage port, .posted receiver => receiver = (m port).map Prod.fst
  | .isLocalPort id, .isLocal answer =>
    answer = ((m id).map fun v => handlers.isCurrentIsolate v.1).getD false
  | .getIsolate id, .isolate isolate => isolate = (m id).bind fun v => handlers.isolate v.1
  | _, _ => False

/-- The ids that a table of the given capacity can be asked for. -/
def ValidId (capacity : ℕ) (port : ℤ) : Prop := 0 ≤ port ∨ (capacity : ℤ) ∣ port

/-- When an operation goes through. -/
def Admissible (s : PortMap H) (m : OpenPorts H) : Operation H → Prop
  | .createPort _ draws => ∃ draw ∈ draws, portOfDraw draw ≠ 0 ∧ m (portOfDraw draw) = none
  | .setPortState port _ => ∃ handler, m port = some (handler, .kNewPort)
  | .closePort port => ValidId s.capacity port
  | .closePorts _ => True
  | .postMessage port => ValidId s.capacity port
  | .isLocalPort id => ValidId s.capacity id
  | .getIsolate id => ValidId s.capacity id

section

variable {s : PortMap H} {m : OpenPorts H} (handlers : Handlers H I)

omit [DecidableEq H] in
lemma exists_draw_iff (draws : List ℕ) :
    (∃ draw ∈ draws, portOfDraw draw ≠ 0 ∧ m (portOfDraw draw) = none) ↔
      ∃ port, (draws.map portOfDraw).find? (unusedId m) = some port := by
  rw [← Option.isSome_iff_exists, List.find?_isSome]
  simp [unusedId]

variable {port : ℤ}

section

variable (h : Invariant s m) (hsign : 0 ≤ port.tmod s.capacity)

include h hsign

lemma Invariant.lookup_eq : lookup port s = .ok ((m port).map Prod.fst) := by
  rcases h.findPort_spec hsign with ⟨hm, hfind⟩ | ⟨i, handler, st, hm, hfind, hi⟩
  · rw [lookup, hfind, hm]
    rfl
  · rw [lookup, hfind, hm, ok_bind, if_neg (by omega), entryAt_of_getElem? hi]
    rfl

lemma Invariant.postMessage_eq : postMessage port s = .ok ((m port).map Prod.fst) := by
  rcases h.findPort_spec hsign with ⟨hm, hfind⟩ | ⟨i, handler, st, hm, hfind, hi⟩
  · rw [postMessage, hfind, hm]
    rfl
  · have hpos := (h.layout.shaped _ (mem_of_getElem? hi)).opened rfl
    have hlt : (i : ℤ) < s.capacity := by
      have := (List.getElem?_eq_some_iff.mp hi).1
      rw [h.capacity]
      omega
    rw [postMessage, hfind, hm, ok_bind, if_neg (by omega),
      check_of (decide_eq_true (Int.natCast_nonneg i)), ok_bind, check_of (decide_eq_true hlt),
      ok_bind, entryAt_of_getElem? hi, ok_bind,
      check_of (decide_eq_true (by dsimp only at hpos ⊢; omega))]
    rfl

lemma Invariant.closePort_step :
    ∃ s' wasOpen deletion, closePort handlers port s = .ok (s', wasOpen, deletion) ∧
      Answers handlers m (.closePort port) (.closed wasOpen deletion) ∧
      Invariant s' (update m port none) := by
  cases hm : m port with
  | none =>
    refine ⟨s, false, false, h.closePort_none handlers hsign hm, ⟨by rw [hm]; rfl, ?_⟩, ?_⟩
    · simp [hm]
    · rw [← hm, update_eq_self]
      exact h
  | some v =>
    obtain ⟨handler, st⟩ := v
    obtain ⟨s', hclose, hinv⟩ := h.closePort_some handlers hm
    refine ⟨s', true, _, hclose, ⟨by rw [hm]; rfl, ?_⟩, hinv⟩
    have hlive : ¬ 0 < s'.livePorts handler ↔ ∀ q ≠ port, m q ≠ some (handler, .kLivePort) := by
      rw [hinv.content.live_pos_iff, not_exists]
      refine forall_congr' fun q => ?_
      by_cases hq : q = port
      · simp [hq]
      · simp [hq]
    rw [Bool.and_eq_true, Bool.not_eq_true', decide_eq_false_iff_not, hlive]
    constructor
    · rintro ⟨hnone, howned⟩
      exact ⟨handler, st, hm, howned, hnone⟩
    · rintro ⟨handler', st', hsome, howned, hnone⟩
      rw [hm] at hsome
      cases hsome
      exact ⟨hnone, howned⟩

end

lemma Invariant.step_spec (h : Invariant s m) {op : Operation H} (hop : Admissible s m op) :
    ∃ s' answer, step handlers op s = .ok (s', answer) ∧ Answers handlers m op answer ∧
      Invariant s' (record m op answer) := by
  cases op with
  | createPort handler draws =>
    obtain ⟨port, hdraw⟩ := (exists_draw_iff draws).mp hop
    obtain ⟨s', hcreate, hinv⟩ := h.createPort_spec handler hdraw
    exact ⟨s', .port port, by rw [step, hcreate]; rfl, ⟨hdraw, unusedId_of_find? hdraw⟩, hinv⟩
  | setPortState port st =>
    obtain ⟨handler, hm⟩ := hop
    obtain ⟨s', hset, hinv⟩ := h.setPortState_spec st hm
    refine ⟨s', .done, by rw [step, hset]; rfl, trivial, ?_⟩
    rw [record, hm]
    exact hinv
  | closePort port =>
    obtain ⟨s', wasOpen, deletion, hclose, hanswers, hinv⟩ :=
      h.closePort_step handlers ((tmod_nonneg_iff port).mpr hop)
    exact ⟨s', .closed wasOpen deletion, by rw [step, hclose]; rfl, hanswers, hinv⟩
  | closePorts handler =>
    obtain ⟨s', hclose, hinv⟩ := h.closePorts_spec handler
    exact ⟨s', .done, by rw [step, hclose]; rfl, trivial, hinv⟩
  | postMessage port =>
    have hpost := h.postMessage_eq ((tmod_nonneg_iff port).mpr hop)
    exact ⟨s, .posted _, by rw [step, hpost]; rfl, rfl, h⟩
  | isLocalPort id =>
    have hlookup := h.lookup_eq ((tmod_nonneg_iff id).mpr hop)
    refine ⟨s, .isLocal _, ?_, rfl, h⟩
    rw [step, isLocalPort, hlookup]
    cases m id <;> rfl
  | getIsolate id =>
    have hlookup := h.lookup_eq ((tmod_nonneg_iff id).mpr hop)
    refine ⟨s, .isolate _, ?_, rfl, h⟩
    rw [step, getIsolate, hlookup]
    cases m id <;> rfl

omit [DecidableEq H] in
lemma findPort_invalid (hid : ¬ ValidId s.capacity port) :
    findPort s port = .error .outOfBounds := by
  refine findPort_of_tmod_neg (not_le.mp fun hsign => hid ?_)
  exact (tmod_nonneg_iff port).mp hsign

lemma Invariant.setPortState_fails (h : Invariant s m) (st : PortState)
    (hno : ¬ ∃ handler, m port = some (handler, .kNewPort)) :
    ∃ failure, setPortState port st s = .error failure := by
  by_cases hid : ValidId s.capacity port
  · rcases h.findPort_spec ((tmod_nonneg_iff port).mpr hid) with
      ⟨hm, hfind⟩ | ⟨i, handler, st', hm, hfind, hi⟩
    · exact ⟨.assertion, by rw [setPortState, hfind]; rfl⟩
    · have hst : st' ≠ .kNewPort := fun heq => hno ⟨handler, heq ▸ hm⟩
      refine ⟨.assertion, ?_⟩
      rw [setPortState, hfind, ok_bind, check_of (decide_eq_true (Int.natCast_nonneg i)), ok_bind,
        entryAt_of_getElem? hi, ok_bind]
      rw [check, if_neg (by simp [hst])]
      rfl
  · exact ⟨.outOfBounds, by rw [setPortState, findPort_invalid hid]; rfl⟩

lemma Invariant.step_fails (h : Invariant s m) {op : Operation H} (hop : ¬ Admissible s m op) :
    ∃ failure, step handlers op s = .error failure := by
  cases op with
  | createPort handler draws =>
    refine ⟨.diverges, ?_⟩
    have hnone : (draws.map portOfDraw).find? (unusedId m) = none := by
      rw [← Option.not_isSome_iff_eq_none, Option.isSome_iff_exists]
      exact fun hex => hop ((exists_draw_iff draws).mpr hex)
    rw [step, createPort, allocatePort, h.drawPort_eq, hnone]
    rfl
  | setPortState port st =>
    obtain ⟨failure, hfails⟩ := h.setPortState_fails st hop
    exact ⟨failure, by rw [step, hfails]; rfl⟩
  | closePort port => exact ⟨.outOfBounds, by rw [step, closePort, findPort_invalid hop]; rfl⟩
  | closePorts handler => exact absurd trivial hop
  | postMessage port => exact ⟨.outOfBounds, by rw [step, postMessage, findPort_invalid hop]; rfl⟩
  | isLocalPort id =>
    exact ⟨.outOfBounds, by rw [step, isLocalPort, lookup, findPort_invalid hop]; rfl⟩
  | getIsolate id =>
    exact ⟨.outOfBounds, by rw [step, getIsolate, lookup, findPort_invalid hop]; rfl⟩

end

/-- A sequence of operations from `Init` on, with their answers. -/
inductive Run (handlers : Handlers H I) : List (Operation H × Answer H I) → PortMap H → Prop
  | init : Run handlers [] init
  | step {history : List (Operation H × Answer H I)} {s s' : PortMap H} {op : Operation H}
      {answer : Answer H I} : Run handlers history s → step handlers op s = .ok (s', answer) →
      Run handlers (history ++ [(op, answer)]) s'

section

variable {handlers : Handlers H I} {s s' : PortMap H} {m : OpenPorts H} {op : Operation H}
  {answer : Answer H I} {history : List (Operation H × Answer H I)} {handler : H} {port : ℤ}

lemma Invariant.of_step (h : Invariant s m) (hstep : step handlers op s = .ok (s', answer)) :
    Answers handlers m op answer ∧ Invariant s' (record m op answer) := by
  have hop : Admissible s m op := by
    by_contra hno
    obtain ⟨failure, hfails⟩ := h.step_fails handlers hno
    rw [hfails] at hstep
    cases hstep
  obtain ⟨s'', answer', hstep', hspec⟩ := h.step_spec handlers hop
  rw [hstep] at hstep'
  cases hstep'
  exact hspec

lemma openPorts_concat (e : Operation H × Answer H I) :
    openPorts (history ++ [e]) = record (openPorts history) e.1 e.2 := by
  rw [openPorts, foldl_append]
  rfl

lemma Run.invariant (h : Run handlers history s) : Invariant s (openPorts history) := by
  induction h with
  | init => exact invariant_init
  | step _ hstep ih =>
    rw [openPorts_concat]
    exact (ih.of_step hstep).2

/-- Only closing takes an open port from its handler: a new port gets another id. -/
lemma Answers.keeps (h : Answers handlers m op answer)
    (hport : (m port).map Prod.fst = some handler)
    (hop : op ≠ .closePort port ∧ op ≠ .closePorts handler) :
    (record m op answer port).map Prod.fst = some handler := by
  obtain ⟨v, hv, rfl⟩ := Option.map_eq_some_iff.mp hport
  cases op with
  | createPort handler' draws =>
    cases answer with
    | port port' =>
      have hfree := h.2.2
      rw [record, Function.update_apply]
      grind
    | _ => exact h.elim
  | setPortState | closePort =>
    rw [record, Function.update_apply]
    grind
  | closePorts =>
    rw [record, withoutHandler, hv]
    grind
  | _ => exact hport

omit [DecidableEq H] in
/-- An open port is not created again. -/
lemma Answers.ne_port (h : Answers handlers m op answer)
    (hport : (m port).map Prod.fst = some handler) : answer ≠ .port port := by
  rintro rfl
  cases op with
  | createPort handler' draws =>
    rw [h.2.2] at hport
    cases hport
  | _ => exact h

lemma Run.created {draws : List ℕ} (h : Run handlers history s) :
    ∀ earlier later, history = earlier ++ (.createPort handler draws, .port port) :: later →
      (∀ e ∈ later, e.1 ≠ .closePort port ∧ e.1 ≠ .closePorts handler) →
      0 < port ∧ (openPorts history port).map Prod.fst = some handler ∧
        ∀ e ∈ later, e.2 ≠ .port port := by
  induction h with
  | init => simp
  | step hrun hstep ih =>
    intro earlier later heq hopen
    have hanswer := (hrun.invariant.of_step hstep).1
    rw [openPorts_concat]
    rcases eq_nil_or_concat' later with rfl | ⟨later, e, rfl⟩
    · obtain ⟨rfl, he⟩ := append_inj' heq rfl
      cases he
      exact ⟨hanswer.2.1, by simp [record], by simp⟩
    · rw [← cons_append, ← append_assoc] at heq
      obtain ⟨hhist, he⟩ := append_inj' heq rfl
      cases he
      obtain ⟨hpos, hport, hnew⟩ := ih _ _ hhist fun e he => hopen e (mem_append_left _ he)
      refine ⟨hpos, hanswer.keeps hport (hopen _ mem_concat_self), fun e he => ?_⟩
      rcases mem_append.mp he with he | he
      · exact hnew e he
      · rw [mem_singleton.mp he]
        exact hanswer.ne_port hport

end

/-- A probe for a valid id ends at the slot of its handler, or finds nothing when the port is not
open, and the counters are right. -/
structure Faithful (s : PortMap H) (m : OpenPorts H) : Prop where
  finds : ∀ port, ValidId s.capacity port →
    match m port with
    | none => findPort s port = .ok (-1)
    | some (handler, st) => ∃ index : ℕ, findPort s port = .ok (index : ℤ) ∧
        s.map[index]? = some ⟨port, .handler handler, st⟩
  capacity : s.capacity = s.map.length
  used : s.used = s.map.countP fun e => e.port ≠ 0
  deleted : s.deleted = s.map.countP fun e => e.port = 0 ∧ e.handler.isDeleted
  free : ∃ e ∈ s.map, e.port = 0 ∧ e.handler.isNull
  live : ∀ handler, s.livePorts handler = Set.ncard {port | m port = some (handler, .kLivePort)}

lemma Invariant.faithful {s : PortMap H} {m : OpenPorts H} (h : Invariant s m) :
    Faithful s m where
  finds port hid := by
    cases hm : m port with
    | none => exact h.findPort_none ((tmod_nonneg_iff port).mpr hid) hm
    | some v => exact h.findPort_some hm
  capacity := h.capacity
  used := by
    rw [h.used, openEntries, ← countP_eq_length_filter]
    refine congrArg Nat.cast (countP_congr fun e he => ?_)
    have hshaped := h.layout.shaped e he
    rw [decide_eq_true_iff]
    exact ⟨fun hopen => (hshaped.opened hopen).ne', hshaped.isOpen_of_port_ne⟩
  deleted := by
    rw [h.deleted, tombstones]
    refine congrArg Nat.cast (countP_congr fun e he => ?_)
    rw [decide_eq_true_iff]
    refine ⟨fun hdel => ⟨(h.layout.shaped e he).unused ?_, hdel⟩, fun hdel => hdel.2⟩
    rw [Entry.isOpen, hdel, Bool.not_true, Bool.and_false]
  free := by
    obtain ⟨e, he, hfree⟩ := h.exists_free
    refine ⟨e, he, (h.layout.shaped e he).unused ?_, hfree⟩
    rw [Entry.isOpen, hfree]
    rfl
  live := h.content.ncard_live

/-- After every run the port map is the finite map of its open ports, and the next operation answers
from it exactly when it is admissible. -/
theorem run_faithful (handlers : Handlers H I) (history : List (Operation H × Answer H I))
    (s : PortMap H) (h : Run handlers history s) :
    Faithful s (openPorts history) ∧ ∀ op,
      (∃ s' answer, step handlers op s = .ok (s', answer) ∧
        Answers handlers (openPorts history) op answer) ↔ Admissible s (openPorts history) op := by
  refine ⟨h.invariant.faithful, fun op => ⟨?_, fun hop => ?_⟩⟩
  · rintro ⟨s', answer, hstep, -⟩
    by_contra hno
    obtain ⟨failure, hfails⟩ := h.invariant.step_fails handlers hno
    rw [hfails] at hstep
    cases hstep
  · obtain ⟨s', answer, hstep, hanswers, -⟩ := h.invariant.step_spec handlers hop
    exact ⟨s', answer, hstep, hanswers⟩

/-- One handler, of isolate 7. -/
def oneHandler : Handlers Unit ℕ := ⟨fun _ => true, fun _ => some 7, fun _ => true⟩

theorem run_faithful_one_port :
    ∃ s, Run oneHandler [(.createPort () [0, 5], .port 5)] s ∧ s.used = 1 ∧
      (∃ s' answer, step oneHandler (.postMessage 5) s = .ok (s', answer)) ∧
      ¬ ∃ s' answer, step oneHandler (.postMessage (-1)) s = .ok (s', answer) ∧
        Answers oneHandler (openPorts [(.createPort () [0, 5], (.port 5 : Answer Unit ℕ))])
          (.postMessage (-1)) answer := by
  have hrun : Run oneHandler [(.createPort () [0, 5], .port 5)] _ := Run.step Run.init rfl
  obtain ⟨-, hstep⟩ := run_faithful _ _ _ hrun
  obtain ⟨s', answer, hpost, -⟩ := (hstep (.postMessage 5)).mpr (Or.inl (by decide))
  refine ⟨_, hrun, rfl, ⟨s', answer, hpost⟩, fun hfails => ?_⟩
  rcases (hstep (.postMessage (-1))).mp hfails with hneg | hdvd
  · exact absurd hneg (by decide)
  · exact absurd hdvd (by decide)

/-- A message to the port -1 reads the slot -1. -/
theorem postMessage_negative_id :
    Run oneHandler [] init ∧ step oneHandler (.postMessage (-1)) init = .error .outOfBounds :=
  ⟨.init, rfl⟩

/-- From its creation until it or its handler's ports are closed, a port's messages go to the
handler that created it, and its id is given to no other port. -/
theorem postMessage_created (handlers : Handlers H I) (earlier later) (s : PortMap H) (handler : H)
    (draws : List ℕ) (port : ℤ)
    (h : Run handlers (earlier ++ (.createPort handler draws, .port port) :: later) s)
    (hopen : ∀ e ∈ later, e.1 ≠ .closePort port ∧ e.1 ≠ .closePorts handler) :
    (∃ s', step handlers (.postMessage port) s = .ok (s', .posted (some handler))) ∧
      ∀ e ∈ later, e.2 ≠ .port port := by
  obtain ⟨hpos, hport, hnew⟩ := h.created _ _ rfl hopen
  refine ⟨?_, hnew⟩
  obtain ⟨s', answer, hstep, hanswer, -⟩ :=
    h.invariant.step_spec handlers (show Admissible s _ (.postMessage port) from .inl hpos.le)
  cases answer with
  | posted receiver =>
    obtain rfl := hanswer.trans hport
    exact ⟨s', hstep⟩
  | _ => exact hanswer.elim

theorem postMessage_created_two_ports :
    ∃ s s', Run oneHandler [(.createPort () [0, 5], .port 5), (.createPort () [5, 6], .port 6)] s ∧
      step oneHandler (.postMessage 5) s = .ok (s', .posted (some ())) := by
  have hrun : Run oneHandler [(.createPort () [0, 5], .port 5), (.createPort () [5, 6], .port 6)]
      _ :=
    (Run.init.step rfl).step rfl
  obtain ⟨⟨s', hpost⟩, -⟩ := postMessage_created _ [] _ _ _ _ _ hrun (by simp)
  exact ⟨_, s', hrun, hpost⟩

end DartSdk.Ports
