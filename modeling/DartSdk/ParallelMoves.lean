import Mathlib
import DartSdk.Checked

/-!
The parallel move resolver of runtime/vm/compiler/backend/flow_graph_compiler.cc with
MoveOperands of il.h and the x64 EmitMove and EmitSwap of flow_graph_compiler_x64.cc. Stack
slots are frame slots named by their index, and different locations are disjoint. The
registers reserved as TMP and FpuTMP are no locations. The emitted code is the list of its
move and swap operations. The pending moves form a stack in which each move reads the
destination of the one below it, and every unperformed move finds its value in its current
source. A move that still blocks a pending one closes a cycle, and a swap performs it: every other
move follows its value to the place where the swap has put it. What goes through a double slot keeps
its low half only, so that a swap with such a slot loses the rest of a value that is on its way to a
quad slot.
-/

namespace DartSdk.ParallelMoves

section

section

open Checked

/-- A location; constants are named by their defining instruction. -/
inductive Location (C : Type)
  | noLocation
  | constant (c : C)
  | register (reg : ℕ)
  | stackSlot (index : ℤ)
  | fpuRegister (reg : ℕ)
  | doubleStackSlot (index : ℤ)
  | quadStackSlot (index : ℤ)
  deriving DecidableEq

variable {C : Type} [DecidableEq C]

namespace Location

omit [DecidableEq C]

def isInvalid : Location C → Bool
  | .noLocation => true
  | _ => false

def isConstant : Location C → Bool
  | .constant _ => true
  | _ => false

def isRegister : Location C → Bool
  | .register _ => true
  | _ => false

def isStackSlot : Location C → Bool
  | .stackSlot _ => true
  | _ => false

def isFpuRegister : Location C → Bool
  | .fpuRegister _ => true
  | _ => false

def isDoubleStackSlot : Location C → Bool
  | .doubleStackSlot _ => true
  | _ => false

def isQuadStackSlot : Location C → Bool
  | .quadStackSlot _ => true
  | _ => false

end Location

structure Move (C : Type) where
  dest : Location C
  src : Location C

namespace Move

/-- The ASSERT of `IsPending` and `IsEliminated`. -/
def isConsistent (move : Move C) : Bool := !move.src.isInvalid || move.dest.isInvalid

def isEliminated (move : Move C) : Bool := move.src.isInvalid

def isPending (move : Move C) : Bool := move.dest.isInvalid && !move.src.isInvalid

def blocks (move : Move C) (loc : Location C) : Bool := !move.isEliminated && move.src == loc

def isRedundant (move : Move C) : Bool :=
  move.isEliminated || move.dest.isInvalid || move.src == move.dest

def eliminated : Move C := ⟨.noLocation, .noLocation⟩

end Move

/-- An emitted operation. `scratch` is a register that it overwrites besides, without being
restored. -/
inductive Operation (C : Type)
  | move (dest src : Location C) (scratch : Option (Location C))
  | swap (source destination : Location C) (scratch : Option (Location C))

/-- The registers that may serve as scratch registers, in the order of the search. -/
structure ScratchRegisters where
  cpu : List ℕ
  fpu : List ℕ

/-- The resolver: `moves_` and the code emitted so far. -/
structure Resolver (C : Type) where
  moves : List (Move C)
  code : List (Operation C)

namespace Resolver

/-- Access to `moves_[i]`, with the ASSERT that every predicate of a move makes. -/
def moveAt (r : Resolver C) (i : ℕ) : Result (Move C) :=
  match r.moves[i]? with
  | some move => do
      check move.isConsistent
      .ok move
  | none => .error .assertion

def setMove (r : Resolver C) (i : ℕ) (move : Move C) : Resolver C :=
  { r with moves := r.moves.set i move }

def emit (r : Resolver C) (op : Operation C) : Resolver C :=
  { r with code := r.code ++ [op] }

end Resolver

def isScratchLocation (moves : List (Move C)) (loc : Location C) : Bool :=
  !(moves.any fun move => move.blocks loc) && moves.any fun move => move.dest == loc

/-- `AllocateScratchRegister`: the free register, or `none` when one is spilled. -/
def allocateScratchRegister (moves : List (Move C)) (location : ℕ → Location C)
    (registers : List ℕ) : Option (Location C) :=
  (registers.find? fun reg => isScratchLocation moves (location reg)).map location

/-- The combinations that `FlowGraphCompiler::EmitMove` and `EmitMoveToLocation` accept. -/
def canMove (destination source : Location C) : Bool :=
  if destination = source then true
  else
    match source with
    | .register _ => destination.isRegister || destination.isStackSlot
    | .stackSlot _ => destination.isRegister || destination.isFpuRegister || destination.isStackSlot
    | .fpuRegister _ => destination.isFpuRegister || destination.isDoubleStackSlot ||
        destination.isQuadStackSlot
    | .doubleStackSlot _ => destination.isFpuRegister || destination.isDoubleStackSlot ||
        destination.isStackSlot
    | .quadStackSlot _ => destination.isFpuRegister || destination.isQuadStackSlot
    | .constant _ => destination.isRegister || destination.isFpuRegister ||
        destination.isDoubleStackSlot || destination.isStackSlot
    | .noLocation => false

/-- Constants reach an FPU register or a double slot through a CPU register. -/
def moveScratch (registers : ScratchRegisters) (moves : List (Move C))
    (destination source : Location C) : Option (Location C) :=
  if source.isConstant && (destination.isFpuRegister || destination.isDoubleStackSlot) then
    allocateScratchRegister moves .register registers.cpu
  else none

def emitMove (registers : ScratchRegisters) (r : Resolver C) (index : ℕ) : Result (Resolver C) := do
  let move ← r.moveAt index
  check (canMove move.dest move.src)
  let scratch := moveScratch registers r.moves move.dest move.src
  .ok ((r.emit (.move move.dest move.src scratch)).setMove index .eliminated)

/-- The branches of `EmitSwap`; the last one is UNREACHABLE. -/
def canSwap (source destination : Location C) : Bool :=
  if source.isRegister && destination.isRegister then true
  else if source.isRegister && destination.isStackSlot then true
  else if source.isStackSlot && destination.isRegister then true
  else if source.isStackSlot && destination.isStackSlot then true
  else if source.isFpuRegister && destination.isFpuRegister then true
  else if source.isFpuRegister || destination.isFpuRegister then
    destination.isDoubleStackSlot || destination.isQuadStackSlot ||
      source.isDoubleStackSlot || source.isQuadStackSlot
  else if source.isDoubleStackSlot && destination.isDoubleStackSlot then true
  else source.isQuadStackSlot && destination.isQuadStackSlot

/-- Two double or two quad slots are exchanged through a second FPU register. -/
def swapScratch (registers : ScratchRegisters) (moves : List (Move C))
    (source destination : Location C) : Option (Location C) :=
  if (source.isDoubleStackSlot && destination.isDoubleStackSlot) ||
      (source.isQuadStackSlot && destination.isQuadStackSlot) then
    allocateScratchRegister moves .fpuRegister registers.fpu
  else none

/-- The update of the source of another move after a swap. -/
def retarget (source destination : Location C) (other : Move C) : Move C :=
  if other.blocks source then { other with src := destination }
  else if other.blocks destination then { other with src := source }
  else other

def emitSwap (registers : ScratchRegisters) (r : Resolver C) (index : ℕ) : Result (Resolver C) := do
  let move ← r.moveAt index
  let source := move.src
  let destination := move.dest
  check (canSwap source destination)
  let scratch := swapScratch registers r.moves source destination
  let r := (r.emit (.swap source destination scratch)).setMove index .eliminated
  .ok { r with moves := r.moves.map (retarget source destination) }

/-- `PerformMove`. Running out of `fuel` means a recursion deeper than that. -/
def performMove (registers : ScratchRegisters) : ℕ → ℕ → Resolver C → Result (Resolver C)
  | 0, _, _ => .error .diverges
  | fuel + 1, index, r => do
      let move ← r.moveAt index
      check (!move.isPending)
      check (!move.isRedundant)
      check (!move.src.isInvalid)
      let destination := move.dest
      let r := r.setMove index { move with dest := .noLocation }
      let r ← (List.range r.moves.length).foldlM (fun r i => do
        let otherMove ← r.moveAt i
        if otherMove.blocks destination && !otherMove.isPending then
          performMove registers fuel i r
        else .ok r) r
      let move ← r.moveAt index
      check move.isPending
      let r := r.setMove index { move with dest := destination }
      if move.src = destination then .ok (r.setMove index .eliminated)
      else
        match r.moves.find? fun otherMove => otherMove.blocks destination with
        | some otherMove => do
            check otherMove.isPending
            emitSwap registers r index
        | none => emitMove registers r index

/-- `EmitNativeCode` with `BuildInitialMoveList`. `PerformMove` is given as many levels as there are
moves. -/
def emitNativeCode (registers : ScratchRegisters) (parallelMove : List (Move C)) :
    Result (Resolver C) := do
  check (parallelMove.all Move.isConsistent)
  let moves := parallelMove.filter fun move => !move.isRedundant
  let r : Resolver C := ⟨moves, []⟩
  let r ← (List.range moves.length).foldlM (fun r i => do
    let move ← r.moveAt i
    if !move.isEliminated && !move.src.isConstant then performMove registers moves.length i r
    else .ok r) r
  (List.range moves.length).foldlM (fun r i => do
    let move ← r.moveAt i
    if !move.isEliminated then do
      check move.src.isConstant
      emitMove registers r i
    else .ok r) r

/-- What the locations hold, what constants denote, what a double slot keeps of a value, and what
overwriting leaves in a scratch register. -/
structure Machine (C V : Type) where
  constants : C → V
  low : V → V
  scratch : (Location C → V) → V

variable {V : Type}

/-- The part of a value that a location holds. -/
def Machine.fit (machine : Machine C V) : Location C → V → V
  | .doubleStackSlot _, v => machine.low v
  | _, v => v

def Machine.read (machine : Machine C V) (state : Location C → V) : Location C → V
  | .constant c => machine.constants c
  | loc => machine.fit loc (state loc)

def Machine.clobber (machine : Machine C V) (state : Location C → V) :
    Option (Location C) → Location C → V
  | none => state
  | some loc => Function.update state loc (machine.scratch state)

/-- A swap with a double slot is one of `movsd` both ways. -/
def Machine.execute (machine : Machine C V) (state : Location C → V) :
    Operation C → Location C → V
  | .move dest src scratch =>
    Function.update (machine.clobber state scratch) dest
      (machine.fit dest (machine.read state src))
  | .swap source destination scratch =>
    Function.update
      (Function.update (machine.clobber state scratch) source
        (machine.fit source (machine.read state destination)))
      destination (machine.fit destination (machine.read state source))

/-- The state after a list of operations. -/
def Machine.run (machine : Machine C V) (state : Location C → V) (code : List (Operation C)) :
    Location C → V :=
  code.foldl machine.execute state

end

open Checked List

variable {C : Type} [DecidableEq C] {V : Type}

namespace Resolver

omit [DecidableEq C]

/-- The move at an index; an eliminated one outside of the list. -/
def get (r : Resolver C) (i : ℕ) : Move C := r.moves.getD i .eliminated

/-- The move at the index has not been performed. -/
def Unperformed (r : Resolver C) (i : ℕ) : Prop := (r.get i).src ≠ .noLocation

variable {i : ℕ}

lemma Unperformed.lt {r : Resolver C} (h : r.Unperformed i) : i < r.moves.length := by
  by_contra hge
  apply h
  rw [get, getD_eq_default _ _ (by omega)]
  rfl

lemma get_setMove (r : Resolver C) (hi : i < r.moves.length) (move : Move C) (j : ℕ) :
    (r.setMove i move).get j = if i = j then move else r.get j := by
  simp only [get, setMove, getD_eq_getElem?_getD, List.getElem?_set]
  split_ifs with heq
  · simp
  · rfl

@[simp] lemma length_setMove (r : Resolver C) (i : ℕ) (move : Move C) :
    (r.setMove i move).moves.length = r.moves.length := List.length_set ..

lemma getElem?_eq (r : Resolver C) {i : ℕ} (hi : i < r.moves.length) :
    r.moves[i]? = some (r.get i) := by
  rw [get, getD_eq_getElem?_getD, List.getElem?_eq_getElem hi, Option.getD_some]

lemma moveAt_eq (r : Resolver C) (hi : i < r.moves.length)
    (hcons : (r.get i).isConsistent = true) : r.moveAt i = .ok (r.get i) := by
  rw [moveAt, r.getElem?_eq hi]
  simp only [check_of hcons, ok_bind]

end Resolver

omit [DecidableEq C] in
lemma Location.isInvalid_iff (loc : Location C) : loc.isInvalid = true ↔ loc = .noLocation := by
  cases loc <;> simp [Location.isInvalid]

/-- The two banks of locations between which values never move. -/
inductive Bank
  | word
  | floating

/-- The bank of a location. Among the FPU slots only those of one width have one. -/
def bank (quad : Bool) : Location C → Option Bank
  | .register _ => some .word
  | .stackSlot _ => some .word
  | .fpuRegister _ => some .floating
  | .doubleStackSlot _ => if quad then none else some .floating
  | .quadStackSlot _ => if quad then some .floating else none
  | _ => none

/-- A move inside one bank, or of a constant to a location other than a quad slot. -/
def Typed (quad : Bool) (dest src : Location C) : Prop :=
  bank quad dest ≠ none ∧
    ((src.isConstant = true ∧ dest.isQuadStackSlot = false) ∨ bank quad src = bank quad dest)

variable {quad : Bool}

lemma canMove_of_typed {dest src : Location C} (h : Typed quad dest src) :
    canMove dest src = true := by
  obtain ⟨hdest, hsrc⟩ := h
  unfold canMove
  split
  · rfl
  · cases quad <;> cases src <;> cases dest <;>
      simp_all [bank, Location.isConstant, Location.isQuadStackSlot, Location.isRegister,
        Location.isStackSlot, Location.isFpuRegister, Location.isDoubleStackSlot]

omit [DecidableEq C] in
lemma canSwap_of_bank {source destination : Location C}
    (hdest : bank quad destination ≠ none) (h : bank quad source = bank quad destination) :
    canSwap source destination = true := by
  cases quad <;> cases source <;> cases destination <;>
    simp_all [bank, canSwap, Location.isQuadStackSlot, Location.isRegister,
      Location.isStackSlot, Location.isFpuRegister, Location.isDoubleStackSlot]

omit [DecidableEq C] in
lemma bank_ne_none {loc : Location C} (h : bank quad loc ≠ none) :
    loc ≠ .noLocation ∧ loc.isConstant = false := by
  cases loc <;> simp_all [bank, Location.isConstant]

omit [DecidableEq C] in
lemma Machine.read_of_not_constant (machine : Machine C V) (state : Location C → V)
    {loc : Location C} (h : loc.isConstant = false) :
    machine.read state loc = machine.fit loc (state loc) := by
  cases loc <;> first | rfl | simp [Location.isConstant] at h

omit [DecidableEq C] in
lemma Machine.read_congr (machine : Machine C V) {state state' : Location C → V}
    {loc : Location C} (h : state loc = state' loc) :
    machine.read state loc = machine.read state' loc := by
  cases loc <;> simp only [Machine.read, h]

/-- The moves that are not redundant, and the machine they are performed on. -/
structure Task (C V : Type) [DecidableEq C] where
  moves : List (Move C)
  quad : Bool
  machine : Machine C V
  initial : Location C → V
  distinct : (moves.map Move.dest).Nodup
  typed : ∀ move ∈ moves, Typed quad move.dest move.src
  nonredundant : ∀ move ∈ moves, move.isRedundant = false
  fits : ∀ move ∈ moves, ∀ loc, bank quad loc = bank quad move.dest →
    machine.fit loc (machine.read initial move.src) = machine.read initial move.src

namespace Task

variable (T : Task C V)

def dest (i : ℕ) : Location C := (T.moves.getD i .eliminated).dest

/-- The value that a move has to bring to its destination. -/
def want (i : ℕ) : V := T.machine.read T.initial (T.moves.getD i .eliminated).src

def state (r : Resolver C) : Location C → V := T.machine.run T.initial r.code

variable {i : ℕ}

lemma moves_getD_mem (hi : i < T.moves.length) : T.moves.getD i .eliminated ∈ T.moves := by
  rw [getD_eq_getElem?_getD, List.getElem?_eq_getElem hi, Option.getD_some]
  exact getElem_mem hi

lemma dest_injective {j : ℕ} (hi : i < T.moves.length) (hj : j < T.moves.length)
    (h : T.dest i = T.dest j) : i = j := by
  have hi' : i < (T.moves.map Move.dest).length := by rwa [length_map]
  have hj' : j < (T.moves.map Move.dest).length := by rwa [length_map]
  have hinj : (T.moves.map Move.dest)[i] = (T.moves.map Move.dest)[j] ↔ i = j :=
    T.distinct.getElem_inj_iff
  apply hinj.mp
  simpa only [dest, getD_eq_getElem?_getD, List.getElem?_eq_getElem hi,
    List.getElem?_eq_getElem hj, Option.getD_some, getElem_map] using h

lemma bank_dest (hi : i < T.moves.length) : bank T.quad (T.dest i) ≠ none :=
  (T.typed _ (T.moves_getD_mem hi)).1

lemma fit_want (hi : i < T.moves.length) {loc : Location C}
    (h : bank T.quad loc = bank T.quad (T.dest i)) : T.machine.fit loc (T.want i) = T.want i :=
  T.fits _ (T.moves_getD_mem hi) loc h

end Task

/-- The invariant of the resolver. The stack lists the pending moves, the latest first. -/
structure Keeps (T : Task C V) (stack : List ℕ) (r : Resolver C) : Prop where
  length : r.moves.length = T.moves.length
  performed : ∀ i, ¬ r.Unperformed i → r.get i = .eliminated
  active : ∀ i, i ∉ stack → r.Unperformed i →
    (r.get i).dest = T.dest i ∧ (r.get i).src ≠ T.dest i
  pending : ∀ i ∈ stack, r.Unperformed i ∧ (r.get i).dest = .noLocation ∧
    (r.get i).src.isConstant = false
  chain : stack.IsChain fun upper lower => (r.get upper).src = T.dest lower
  nodup : stack.Nodup
  typed : ∀ i, r.Unperformed i → Typed T.quad (T.dest i) (r.get i).src
  sources : ∀ i, r.Unperformed i → T.machine.read (T.state r) (r.get i).src = T.want i
  done : ∀ i < T.moves.length, ¬ r.Unperformed i →
    T.machine.read (T.state r) (T.dest i) = T.want i
  others : ∀ loc, (∀ i < T.moves.length, T.dest i ≠ loc) → T.state r loc = T.initial loc

/-- What performing moves can change: moves get eliminated, no other move starts to read the
destination of a pending one, and constants stay. -/
structure Progress (T : Task C V) (stack : List ℕ) (r r' : Resolver C) : Prop where
  unperformed : ∀ i, r'.Unperformed i → r.Unperformed i
  blockers : ∀ i, i ∉ stack → r'.Unperformed i → ∀ p ∈ stack,
    (r'.get i).src = T.dest p → (r.get i).src = T.dest p
  constants : ∀ i, r'.Unperformed i → (r.get i).src.isConstant = true →
    (r'.get i).src.isConstant = true

lemma Progress.refl (T : Task C V) (stack : List ℕ) (r : Resolver C) : Progress T stack r r :=
  ⟨fun _ h => h, fun _ _ _ _ _ h => h, fun _ _ h => h⟩

lemma Progress.trans {T : Task C V} {stack : List ℕ} {r1 r2 r3 : Resolver C}
    (h1 : Progress T stack r1 r2) (h2 : Progress T stack r2 r3) : Progress T stack r1 r3 where
  unperformed i h := h1.unperformed i (h2.unperformed i h)
  blockers i hi h p hp hsrc :=
    h1.blockers i hi (h2.unperformed i h) p hp (h2.blockers i hi h p hp hsrc)
  constants i h hconst := h2.constants i h (h1.constants i (h2.unperformed i h) hconst)

section

variable {T : Task C V} {stack : List ℕ} {r : Resolver C}

variable {i : ℕ}

lemma Keeps.lt (h : Keeps T stack r) (hi : r.Unperformed i) : i < T.moves.length :=
  h.length ▸ hi.lt

lemma Keeps.moveAt_eq (h : Keeps T stack r) (hi : i < T.moves.length) :
    r.moveAt i = .ok (r.get i) := by
  apply r.moveAt_eq (h.length ▸ hi)
  by_cases hun : r.Unperformed i
  · have hok : (r.get i).src.isInvalid = false := by
      rw [← Bool.not_eq_true, Location.isInvalid_iff]
      exact hun
    rw [Move.isConsistent, hok]
    rfl
  · rw [h.performed i hun]
    rfl

lemma Keeps.bank_src (h : Keeps T stack r) (hi : r.Unperformed i)
    (hconst : (r.get i).src.isConstant = false) :
    bank T.quad (r.get i).src = bank T.quad (T.dest i) := by
  rcases (h.typed i hi).2 with ⟨hc, -⟩ | hbank
  · rw [hconst] at hc
    cases hc
  · exact hbank

omit [DecidableEq C] in
lemma Resolver.unperformed_setMove (hi : i < r.moves.length) (dest : Location C) (j : ℕ) :
    (r.setMove i { r.get i with dest := dest }).Unperformed j ↔ r.Unperformed j := by
  unfold Resolver.Unperformed
  rw [r.get_setMove hi]
  split_ifs with heq
  · rw [heq]
  · rfl

omit [DecidableEq C] in
lemma Resolver.src_setMove (hi : i < r.moves.length) (dest : Location C) (j : ℕ) :
    ((r.setMove i { r.get i with dest := dest }).get j).src = (r.get j).src := by
  rw [r.get_setMove hi]
  split_ifs with heq
  · rw [heq]
  · rfl

lemma Keeps.markPending (h : Keeps T stack r) (hi : i ∉ stack) (hun : r.Unperformed i)
    (hconst : (r.get i).src.isConstant = false)
    (htop : ∀ p ∈ stack.head?, (r.get i).src = T.dest p) :
    Keeps T (i :: stack) (r.setMove i { r.get i with dest := .noLocation }) := by
  have hlt := hun.lt
  have hunp := Resolver.unperformed_setMove hlt .noLocation
  have hsrc := Resolver.src_setMove hlt .noLocation
  have hstate : T.state (r.setMove i { r.get i with dest := .noLocation }) = T.state r := rfl
  refine ⟨by rw [Resolver.length_setMove, h.length], ?_, ?_, ?_, ?_, ?_, ?_, ?_, ?_, ?_⟩
  · intro j hj
    rw [hunp] at hj
    rw [r.get_setMove hlt, if_neg (by rintro rfl; exact hj hun)]
    exact h.performed j hj
  · intro j hj hjun
    rw [mem_cons, not_or] at hj
    rw [hunp] at hjun
    rw [r.get_setMove hlt, if_neg (Ne.symm hj.1)]
    exact h.active j hj.2 hjun
  · intro j hj
    rw [hunp, hsrc]
    rcases mem_cons.mp hj with rfl | hj
    · exact ⟨hun, by rw [r.get_setMove hlt, if_pos rfl], hconst⟩
    · obtain ⟨hjun, hjdest, hjconst⟩ := h.pending j hj
      refine ⟨hjun, ?_, hjconst⟩
      rw [r.get_setMove hlt, if_neg (by rintro rfl; exact hi hj)]
      exact hjdest
  · simp only [hsrc]
    exact isChain_cons.mpr ⟨htop, h.chain⟩
  · exact nodup_cons.mpr ⟨hi, h.nodup⟩
  · intro j hj
    rw [hunp] at hj
    rw [hsrc]
    exact h.typed j hj
  · intro j hj
    rw [hunp] at hj
    rw [hsrc, hstate]
    exact h.sources j hj
  · intro j hj hjun
    rw [hunp] at hjun
    exact h.done j hj hjun
  · exact h.others

end

end

section

open Location Equiv Resolver

section

open Checked List

variable {C : Type} [DecidableEq C] {V : Type} {T : Task C V} {stack : List ℕ} {r : Resolver C}

variable {stack' : List ℕ} {index : ℕ}

lemma Keeps.perform {r' : Resolver C} (h : Keeps T stack' r)
    (hstack : stack' = index :: stack ∨ stack' = stack) (hidx : index ∉ stack)
    (hlen : r'.moves.length = r.moves.length)
    (hget : ∀ j, r'.get j = if index = j then .eliminated else r.get j)
    (hwant : T.machine.read (T.state r') (T.dest index) = T.want index)
    (hsources : ∀ j, index ≠ j → r.Unperformed j →
      T.machine.read (T.state r') (r.get j).src = T.machine.read (T.state r) (r.get j).src)
    (hrest : ∀ loc, loc ≠ T.dest index →
      (∀ j, index ≠ j → r.Unperformed j → T.dest j ≠ loc) → T.state r' loc = T.state r loc)
    (hlt : index < T.moves.length) :
    Keeps T stack r' ∧ Progress T stack r r' ∧ ¬ r'.Unperformed index := by
  have hmem : ∀ j, index ≠ j → (j ∈ stack' ↔ j ∈ stack) := by
    intro j hj
    rcases hstack with rfl | rfl
    · simp [Ne.symm hj]
    · rfl
  have hgone : ¬ r'.Unperformed index := by
    unfold Resolver.Unperformed
    rw [hget, if_pos rfl]
    exact fun hne => hne rfl
  have hother : ∀ j, r'.Unperformed j → index ≠ j ∧ r.Unperformed j ∧ r'.get j = r.get j := by
    intro j hj
    have hne : index ≠ j := by
      rintro rfl
      exact hgone hj
    have heq : r'.get j = r.get j := by rw [hget, if_neg hne]
    refine ⟨hne, ?_, heq⟩
    unfold Resolver.Unperformed at hj ⊢
    rwa [heq] at hj
  have hsame : ∀ j ∈ stack, r'.get j = r.get j := by
    intro j hj
    rw [hget, if_neg (by rintro rfl; exact hidx hj)]
  have hchain : stack.IsChain fun upper lower => (r.get upper).src = T.dest lower := by
    rcases hstack with rfl | rfl
    · exact h.chain.tail
    · exact h.chain
  have hnodup : stack.Nodup := by
    rcases hstack with rfl | rfl
    · exact (nodup_cons.mp h.nodup).2
    · exact h.nodup
  refine ⟨⟨by rw [hlen, h.length], ?_, ?_, ?_, ?_, hnodup, ?_, ?_, ?_, ?_⟩, ⟨?_, ?_, ?_⟩, hgone⟩
  · intro j hj
    rw [hget]
    split_ifs with hne
    · rfl
    · apply h.performed
      unfold Resolver.Unperformed at hj ⊢
      rwa [hget, if_neg hne] at hj
  · intro j hj hun
    obtain ⟨hne, hun', heq⟩ := hother j hun
    rw [heq]
    exact h.active j (by rwa [hmem j hne]) hun'
  · intro j hj
    have hne : index ≠ j := by
      rintro rfl
      exact hidx hj
    have hpend := h.pending j ((hmem j hne).mpr hj)
    unfold Resolver.Unperformed
    rw [hsame j hj]
    exact hpend
  · exact hchain.imp_of_mem_imp fun a b ha _ hab => by rw [hsame a ha, hab]
  · intro j hj
    obtain ⟨-, hun', heq⟩ := hother j hj
    rw [heq]
    exact h.typed j hun'
  · intro j hj
    obtain ⟨hne, hun', heq⟩ := hother j hj
    rw [heq, hsources j hne hun']
    exact h.sources j hun'
  · intro j hj hun
    by_cases hne : index = j
    · rw [← hne]
      exact hwant
    · have hun' : ¬ r.Unperformed j := by
        unfold Resolver.Unperformed at hun ⊢
        rwa [hget, if_neg hne] at hun
      rw [T.machine.read_congr (hrest _ ?_ ?_), h.done j hj hun']
      · exact fun heq => hne (T.dest_injective hlt hj heq.symm)
      · intro k _ hk heq
        exact hun' (T.dest_injective (h.lt hk) hj heq ▸ hk)
  · intro loc hloc
    rw [hrest loc (Ne.symm (hloc index hlt)) fun j _ hj => hloc j (h.lt hj)]
    exact h.others loc hloc
  · exact fun j hj => (hother j hj).2.1
  · intro j _ hj p _ hsrc
    rwa [(hother j hj).2.2] at hsrc
  · intro j hj hconst
    rwa [(hother j hj).2.2]

/-- The resolver while the move `index` has its destination back. -/
structure Restored (T : Task C V) (r r₁ : Resolver C) (index : ℕ) : Prop where
  get : ∀ j, r₁.get j = if index = j then ⟨T.dest index, (r.get index).src⟩ else r.get j
  length : r₁.moves.length = r.moves.length
  code : r₁.code = r.code

variable {r₁ : Resolver C}

lemma Restored.src (h : Restored T r r₁ index) (j : ℕ) : (r₁.get j).src = (r.get j).src := by
  rw [h.get]
  split_ifs with heq
  · rw [heq]
  · rfl

lemma Restored.moveAt_eq (hrest : Restored T r r₁ index) (hun : r.Unperformed index) :
    r₁.moveAt index = .ok ⟨T.dest index, (r.get index).src⟩ := by
  have hget : r₁.get index = ⟨T.dest index, (r.get index).src⟩ := by rw [hrest.get, if_pos rfl]
  have hok : (r.get index).src.isInvalid = false := by
    rw [← Bool.not_eq_true, isInvalid_iff]
    exact hun
  rw [← hget]
  apply r₁.moveAt_eq (by rw [hrest.length]; exact hun.lt)
  rw [hget, Move.isConsistent, hok]
  rfl

omit [DecidableEq C] in
lemma mem_moves_iff (r : Resolver C) (move : Move C) :
    move ∈ r.moves ↔ ∃ i < r.moves.length, r.get i = move := by
  constructor
  · intro hmem
    obtain ⟨i, hi, rfl⟩ := mem_iff_getElem.mp hmem
    refine ⟨i, hi, ?_⟩
    rw [Resolver.get, getD_eq_getElem?_getD, List.getElem?_eq_getElem hi, Option.getD_some]
  · rintro ⟨i, hi, rfl⟩
    rw [Resolver.get, getD_eq_getElem?_getD, List.getElem?_eq_getElem hi, Option.getD_some]
    exact getElem_mem hi

lemma Move.blocks_iff (move : Move C) (loc : Location C) :
    move.blocks loc = true ↔ move.src ≠ .noLocation ∧ move.src = loc := by
  rw [Move.blocks, Move.isEliminated, Bool.and_eq_true, Bool.not_eq_true', ← Bool.not_eq_true,
    isInvalid_iff, beq_iff_eq]

variable {loc : Location C}

lemma Keeps.scratch_spec (h : Keeps T stack' r)
    (hrest : Restored T r r₁ index) (hloc : loc ≠ .noLocation)
    (hdest : loc ≠ T.dest index) (hscratch : isScratchLocation r₁.moves loc = true) :
    (∃ k, index ≠ k ∧ r.Unperformed k ∧ T.dest k = loc) ∧
      ∀ j, r.Unperformed j → (r.get j).src ≠ loc := by
  rw [isScratchLocation, Bool.and_eq_true, Bool.not_eq_true', any_eq_true, any_eq_false] at hscratch
  obtain ⟨hfree, move, hmem, hmove⟩ := hscratch
  obtain ⟨k, hk, rfl⟩ := (mem_moves_iff r₁ move).mp hmem
  rw [beq_iff_eq, hrest.get] at hmove
  constructor
  · have hne : index ≠ k := by
      rintro rfl
      rw [if_pos rfl] at hmove
      exact hdest hmove.symm
    rw [if_neg hne] at hmove
    have hun : r.Unperformed k := by
      by_contra hper
      rw [h.performed k hper] at hmove
      exact hloc hmove.symm
    have hactive : k ∉ stack' := by
      intro hk
      rw [(h.pending k hk).2.1] at hmove
      exact hloc hmove.symm
    exact ⟨k, hne, hun, (h.active k hactive hun).1.symm.trans hmove⟩
  · intro j hj heq
    have hblocks := hfree (r₁.get j) ((mem_moves_iff r₁ _).mpr ⟨j, hrest.length ▸ hj.lt, rfl⟩)
    rw [Bool.not_eq_true, ← Bool.not_eq_true, Move.blocks_iff, hrest.src] at hblocks
    exact hblocks ⟨hj, heq⟩

lemma allocateScratchRegister_spec {moves : List (Move C)} {location : ℕ → Location C}
    {registers : List ℕ} (h : allocateScratchRegister moves location registers = some loc) :
    (∃ reg, location reg = loc) ∧ isScratchLocation moves loc = true := by
  obtain ⟨reg, hfind, rfl⟩ := Option.map_eq_some_iff.mp h
  have hfree := List.find?_some hfind
  exact ⟨⟨reg, rfl⟩, hfree⟩

/-- An operation overwrites, besides its operands, at most a scratch location. -/
def SparesScratch (T : Task C V) (r : Resolver C) (index : ℕ) (scratch : Option (Location C)) :
    Prop :=
  ∀ loc, scratch = some loc → (∃ k, index ≠ k ∧ r.Unperformed k ∧ T.dest k = loc) ∧
    ∀ j, r.Unperformed j → (r.get j).src ≠ loc

lemma Machine.clobber_of_ne (machine : Machine C V) (state : Location C → V)
    {scratch : Option (Location C)} (h : scratch ≠ some loc) :
    machine.clobber state scratch loc = state loc := by
  cases scratch with
  | none => rfl
  | some loc' =>
    rw [Machine.clobber, Function.update_of_ne]
    rintro rfl
    exact h rfl

lemma Keeps.eliminate_spec (h : Keeps T (index :: stack) r)
    (hrest : Restored T r r₁ index) (hsrc : (r.get index).src = T.dest index) :
    Keeps T stack (r₁.setMove index .eliminated) ∧
      Progress T stack r (r₁.setMove index .eliminated) ∧
      ¬ (r₁.setMove index .eliminated).Unperformed index := by
  obtain ⟨hun, -, hconst⟩ := h.pending index mem_cons_self
  have hstate : T.state (r₁.setMove index .eliminated) = T.state r := by
    rw [Task.state, Task.state, ← hrest.code]
    rfl
  refine h.perform (.inl rfl) (nodup_cons.mp h.nodup).1 ?_ ?_ ?_ ?_ ?_ (h.lt hun)
  · rw [length_setMove, hrest.length]
  · intro j
    rw [get_setMove r₁ (by rw [hrest.length]; exact hun.lt), hrest.get]
    split <;> rfl
  · rw [hstate, ← h.sources index hun, hsrc]
  · intro j _ _
    rw [hstate]
  · intro loc _ _
    rw [hstate]

lemma Task.state_emit (T : Task C V) (r : Resolver C) (op : Operation C) :
    T.state (r.emit op) = T.machine.execute (T.state r) op := by
  simp only [Task.state, Machine.run, emit, foldl_append, foldl_cons, foldl_nil]

lemma Keeps.emitMove_spec (registers : ScratchRegisters) (h : Keeps T stack' r)
    (hstack : stack' = index :: stack ∨ stack' = stack) (hidx : index ∉ stack)
    (hun : r.Unperformed index) (hrest : Restored T r r₁ index)
    (hfree : ∀ j, index ≠ j → r.Unperformed j → (r.get j).src ≠ T.dest index) :
    ∃ r', emitMove registers r₁ index = .ok r' ∧ Keeps T stack r' ∧ Progress T stack r r' ∧
      ¬ r'.Unperformed index := by
  have hlt := h.lt hun
  have hlt1 : index < r₁.moves.length := by rw [hrest.length, h.length]; exact hlt
  have htyped := h.typed index hun
  generalize hscr : moveScratch registers r₁.moves (T.dest index) (r.get index).src = scratch
  have hspares : SparesScratch T r index scratch := by
    intro loc hloc
    subst hloc
    rw [moveScratch] at hscr
    split at hscr
    · rename_i hcond
      obtain ⟨⟨reg, rfl⟩, hloc⟩ := allocateScratchRegister_spec hscr
      refine h.scratch_spec hrest (by simp) ?_ hloc
      rintro hreg
      rw [← hreg] at hcond
      simp [isFpuRegister, isDoubleStackSlot] at hcond
    · cases hscr
  have hstate : T.state ((r₁.emit (.move (T.dest index) (r.get index).src scratch)).setMove index
      .eliminated) =
        Function.update (T.machine.clobber (T.state r) scratch) (T.dest index) (T.want index) := by
    have : T.state r₁ = T.state r := by rw [Task.state, hrest.code, Task.state]
    refine (T.state_emit r₁ _).trans ?_
    rw [this, Machine.execute, h.sources index hun, T.fit_want hlt rfl]
  refine ⟨(r₁.emit (.move (T.dest index) (r.get index).src scratch)).setMove index .eliminated,
    ?_, h.perform hstack hidx ?_ ?_ ?_ ?_ ?_ hlt⟩
  · rw [emitMove, hrest.moveAt_eq hun, ok_bind]
    rw [check_of (canMove_of_typed htyped), ok_bind, hscr]
  · rw [length_setMove]
    exact hrest.length
  · intro j
    rw [get_setMove (r₁.emit _) hlt1]
    split_ifs with hne
    · rfl
    · change r₁.get j = r.get j
      rw [hrest.get, if_neg hne]
  · rw [T.machine.read_of_not_constant _ (bank_ne_none (T.bank_dest hlt)).2, hstate,
      Function.update_self, T.fit_want hlt rfl]
  · intro j hne hj
    refine T.machine.read_congr ?_
    rw [hstate, Function.update_of_ne (hfree j hne hj), Machine.clobber_of_ne]
    exact fun heq => (hspares _ heq).2 j hj rfl
  · intro loc hloc hothers
    rw [hstate, Function.update_of_ne hloc, Machine.clobber_of_ne]
    intro heq
    obtain ⟨⟨k, hne, hk, hdest⟩, -⟩ := hspares loc heq
    exact hothers k hne hk hdest

end

open Checked List Function

variable {C : Type} [DecidableEq C] {V : Type} {T : Task C V} {stack : List ℕ} {r : Resolver C}

omit [DecidableEq C] in
lemma Resolver.get_map (r : Resolver C) (f : Move C → Move C) (hf : f .eliminated = .eliminated)
    (j : ℕ) : Resolver.get { r with moves := r.moves.map f } j = f (r.get j) := by
  simp only [get, getD_eq_getElem?_getD, List.getElem?_map]
  cases r.moves[j]? with
  | none => exact hf.symm
  | some move => rfl

lemma retarget_dest (source destination : Location C) (other : Move C) :
    (retarget source destination other).dest = other.dest := by
  unfold retarget
  split
  · rfl
  · split <;> rfl

variable {source destination loc src : Location C} {scratch : Option (Location C)}

lemma retarget_src (hsource : source ≠ .noLocation)
    (hdestination : destination ≠ .noLocation) (other : Move C) :
    (retarget source destination other).src = Equiv.swap source destination other.src := by
  rw [swap_apply_def]
  unfold retarget
  by_cases hsrc : other.src = source
  · rw [if_pos ((Move.blocks_iff _ _).mpr ⟨hsrc ▸ hsource, hsrc⟩), if_pos hsrc]
  · rw [if_neg (fun h => hsrc ((Move.blocks_iff _ _).mp h).2), if_neg hsrc]
    by_cases hdest : other.src = destination
    · rw [if_pos ((Move.blocks_iff _ _).mpr ⟨hdest ▸ hdestination, hdest⟩), if_pos hdest]
    · rw [if_neg (fun h => hdest ((Move.blocks_iff _ _).mp h).2), if_neg hdest]

omit [DecidableEq C] in
lemma Location.isConstant_ne {loc' : Location C} (h : loc.isConstant = true)
    (h' : loc'.isConstant = false) : loc ≠ loc' := by
  rintro rfl
  rw [h] at h'
  cases h'

lemma Machine.execute_swap_of_ne (machine : Machine C V) (state : Location C → V)
    (hsrc : loc ≠ source) (hdest : loc ≠ destination) (h : scratch ≠ some loc) :
    machine.execute state (.swap source destination scratch) loc = state loc := by
  rw [Machine.execute, update_of_ne hdest, update_of_ne hsrc, machine.clobber_of_ne _ h]

omit [DecidableEq C] in
lemma Location.isConstant_swap [DecidableEq (Location C)]
    (hsrc : source.isConstant = false) (hdest : destination.isConstant = false)
    (h : loc.isConstant = false) : (Equiv.swap source destination loc).isConstant = false := by
  rw [swap_apply_def]
  split_ifs <;> assumption

/-- A value that fits both operands of a swap is read where the swap has put it. -/
lemma Machine.read_swap (machine : Machine C V) (state : Location C → V)
    (hsrc : source.isConstant = false) (hdest : destination.isConstant = false)
    (h : scratch ≠ some src) (hne : source ≠ destination)
    (hfit : src = source ∨ src = destination →
      machine.fit source (machine.read state src) = machine.read state src ∧
        machine.fit destination (machine.read state src) = machine.read state src) :
    machine.read (machine.execute state (.swap source destination scratch))
      (Equiv.swap source destination src) = machine.read state src := by
  rw [swap_apply_def]
  by_cases hs : src = source
  · rw [if_pos hs, machine.read_of_not_constant _ hdest, Machine.execute, update_self, ← hs,
      (hfit (.inl hs)).2, (hfit (.inl hs)).2]
  · rw [if_neg hs]
    by_cases hd : src = destination
    · rw [if_pos hd, machine.read_of_not_constant _ hsrc, Machine.execute, update_of_ne hne,
        update_self, ← hd, (hfit (.inr hd)).1, (hfit (.inr hd)).1]
    · rw [if_neg hd]
      exact machine.read_congr (machine.execute_swap_of_ne state hs hd h)

lemma Typed.swap {quad : Bool} {dest : Location C}
    (hbank : bank quad source = bank quad destination) (hsource : source.isConstant = false)
    (hdest : destination.isConstant = false) (h : Typed quad dest src) :
    Typed quad dest (Equiv.swap source destination src) := by
  refine ⟨h.1, ?_⟩
  rcases h.2 with ⟨hconst, hquad⟩ | hsrc
  · left
    rw [swap_apply_of_ne_of_ne (isConstant_ne hconst hsource)
      (isConstant_ne hconst hdest)]
    exact ⟨hconst, hquad⟩
  · right
    rw [← hsrc, swap_apply_def]
    split_ifs with h1 h2
    · rw [h1, hbank]
    · rw [h2, hbank]
    · rfl

/-- What a swap does to the resolver and the machine. -/
structure Swapped (T : Task C V) (r r' : Resolver C) (index : ℕ)
    (scratch : Option (Location C)) : Prop where
  length : r'.moves.length = r.moves.length
  gone : r'.get index = .eliminated
  dest : ∀ j, index ≠ j → (r'.get j).dest = (r.get j).dest
  src : ∀ j, index ≠ j →
    (r'.get j).src = Equiv.swap (r.get index).src (T.dest index) (r.get j).src
  state : T.state r' =
    T.machine.execute (T.state r) (.swap (r.get index).src (T.dest index) scratch)

lemma Keeps.emitSwap_eq {stack' : List ℕ} {r₁ : Resolver C} {index : ℕ}
    (registers : ScratchRegisters) (h : Keeps T stack' r) (hun : r.Unperformed index)
    (hconst : (r.get index).src.isConstant = false) (hrest : Restored T r r₁ index) :
    ∃ r' scratch, emitSwap registers r₁ index = .ok r' ∧ Swapped T r r' index scratch ∧
      SparesScratch T r index scratch := by
  have hlt := h.lt hun
  have hlt1 : index < r₁.moves.length := by rw [hrest.length, h.length]; exact hlt
  have hdest := (bank_ne_none (T.bank_dest hlt)).1
  have hbank := h.bank_src hun hconst
  have hgone : retarget (r.get index).src (T.dest index) .eliminated = .eliminated := rfl
  generalize hscr : swapScratch registers r₁.moves (r.get index).src (T.dest index) = scratch
  let r2 := (r₁.emit (.swap (r.get index).src (T.dest index) scratch)).setMove index .eliminated
  have hget2 : ∀ j, r2.get j = if index = j then .eliminated else r₁.get j :=
    (r₁.emit _).get_setMove hlt1 .eliminated
  refine ⟨{ r2 with moves := r2.moves.map (retarget (r.get index).src (T.dest index)) },
    scratch, ?_, ⟨?_, ?_, ?_, ?_, ?_⟩, ?_⟩
  · rw [emitSwap, hrest.moveAt_eq hun, ok_bind]
    dsimp only
    rw [check_of (canSwap_of_bank (T.bank_dest hlt) hbank), ok_bind, hscr]
  · rw [length_map, length_setMove]
    exact hrest.length
  · rw [r2.get_map _ hgone, hget2, if_pos rfl, hgone]
  · intro j hne
    rw [r2.get_map _ hgone, retarget_dest, hget2, if_neg hne, hrest.get, if_neg hne]
  · intro j hne
    rw [r2.get_map _ hgone, retarget_src hun hdest, hget2, if_neg hne, hrest.src]
  · have : T.state r₁ = T.state r := by rw [Task.state, hrest.code, Task.state]
    exact (T.state_emit r₁ _).trans (by rw [this])
  · intro loc hloc
    subst hloc
    rw [swapScratch] at hscr
    split at hscr
    · rename_i hcond
      obtain ⟨⟨reg, rfl⟩, hloc⟩ := allocateScratchRegister_spec hscr
      refine h.scratch_spec hrest (by simp) ?_ hloc
      rintro hreg
      rw [← hreg] at hcond
      simp [isQuadStackSlot, isDoubleStackSlot] at hcond
    · cases hscr

lemma Keeps.emitSwap_spec {r₁ : Resolver C} {index top : ℕ} {rest : List ℕ}
    (registers : ScratchRegisters) (h : Keeps T (index :: top :: rest) r)
    (hrest : Restored T r r₁ index)
    (hfree : ∀ j, j ∉ index :: top :: rest → r.Unperformed j → (r.get j).src ≠ T.dest index) :
    ∃ r', emitSwap registers r₁ index = .ok r' ∧ Keeps T (top :: rest) r' ∧
      Progress T (top :: rest) r r' ∧ ¬ r'.Unperformed index := by
  obtain ⟨hun, -, hconst⟩ := h.pending index mem_cons_self
  obtain ⟨r', scratch, hswap, hr', hspares⟩ := h.emitSwap_eq registers hun hconst hrest
  have hlt := h.lt hun
  have htop : r.Unperformed top := (h.pending top (by simp)).1
  have hsource : (r.get index).src = T.dest top := (isChain_cons_cons.mp h.chain).1
  obtain ⟨hidx, hnodup⟩ := nodup_cons.mp h.nodup
  have hdestconst := (bank_ne_none (T.bank_dest hlt)).2
  have hsources : ∀ j, r.Unperformed j → scratch ≠ some (r.get j).src :=
    fun j hj heq => (hspares _ heq).2 j hj rfl
  -- The operands of the swap and every location that is read in their place are of one bank.
  have hread : ∀ j, r.Unperformed j → T.machine.read (T.machine.execute (T.state r)
      (.swap (r.get index).src (T.dest index) scratch))
        (swap (r.get index).src (T.dest index) (r.get j).src) =
      T.machine.read (T.state r) (r.get j).src := by
    intro j hj
    have hbank := h.bank_src hun hconst
    refine T.machine.read_swap _ hconst hdestconst (hsources j hj) ?_ fun hoperand => ?_
    · rw [hsource]
      exact fun heq => hidx (T.dest_injective (h.lt htop) hlt heq ▸ mem_cons_self)
    · have hj' : bank T.quad (r.get j).src = bank T.quad (T.dest j) := by
        refine h.bank_src hj ?_
        rcases hoperand with heq | heq <;> rw [heq] <;> assumption
      have hdest : bank T.quad (T.dest index) = bank T.quad (T.dest j) := by
        rw [← hj']
        rcases hoperand with heq | heq <;> rw [heq]
        exact hbank.symm
      rw [h.sources j hj]
      exact ⟨T.fit_want (h.lt hj) (hbank.trans hdest), T.fit_want (h.lt hj) hdest⟩
  have hgone : ¬ r'.Unperformed index := by
    unfold Resolver.Unperformed
    rw [hr'.gone]
    exact fun hne => hne rfl
  have hunp : ∀ j, index ≠ j → (r'.Unperformed j ↔ r.Unperformed j) := by
    intro j hne
    unfold Resolver.Unperformed
    rw [hr'.src j hne, not_iff_not, swap_apply_eq_iff, swap_apply_of_ne_of_ne
      (Ne.symm hun) (bank_ne_none (T.bank_dest hlt)).1.symm]
  have hother : ∀ j, r'.Unperformed j → index ≠ j ∧ r.Unperformed j := by
    intro j hj
    have hne : index ≠ j := by
      rintro rfl
      exact hgone hj
    exact ⟨hne, (hunp j hne).mp hj⟩
  have hloc : ∀ loc, loc ≠ T.dest index → (∀ k, r.Unperformed k → T.dest k ≠ loc) →
      T.state r' loc = T.state r loc := by
    intro loc hidx hloc
    rw [hr'.state]
    refine T.machine.execute_swap_of_ne _ (by rw [hsource]; exact (hloc top htop).symm) hidx ?_
    intro heq
    obtain ⟨⟨k, -, hk, hdest⟩, -⟩ := hspares loc heq
    exact hloc k hk hdest
  refine ⟨r', hswap, ⟨?_, ?_, ?_, ?_, ?_, hnodup, ?_, ?_, ?_, ?_⟩, ⟨?_, ?_, ?_⟩, hgone⟩
  · rw [hr'.length, h.length]
  · intro j hj
    by_cases hne : index = j
    · rw [← hne]
      exact hr'.gone
    · have hdest := hr'.dest j hne
      rw [hunp j hne] at hj
      rw [h.performed j hj] at hdest
      have hsrc : (r'.get j).src = .noLocation := by
        by_contra hsrc
        exact hj ((hunp j hne).mp hsrc)
      cases hmove : r'.get j with
      | mk dest src =>
        rw [hmove] at hdest hsrc
        rw [Move.eliminated, Move.mk.injEq]
        exact ⟨hdest, hsrc⟩
  · intro j hj hjun
    obtain ⟨hne, hjun⟩ := hother j hjun
    have hj' : j ∉ index :: top :: rest := by
      rw [mem_cons, not_or]
      exact ⟨Ne.symm hne, hj⟩
    obtain ⟨hdest, hsrc⟩ := h.active j hj' hjun
    refine ⟨by rw [hr'.dest j hne, hdest], ?_⟩
    rw [hr'.src j hne, swap_apply_def]
    split_ifs
    · exact fun heq => hne (T.dest_injective hlt (h.lt hjun) heq)
    · rename_i heq
      exact absurd heq (hfree j hj' hjun)
    · exact hsrc
  · intro j hj
    have hne : index ≠ j := by
      rintro rfl
      exact hidx hj
    obtain ⟨hjun, hdest, hjconst⟩ := h.pending j (mem_cons_of_mem _ hj)
    refine ⟨(hunp j hne).mpr hjun, by rw [hr'.dest j hne, hdest], ?_⟩
    rw [hr'.src j hne]
    exact isConstant_swap hconst hdestconst hjconst
  · -- Inside the stack the sources are destinations of pending moves below the top.
    refine h.chain.tail.imp_of_mem_tail_imp fun upper lower hupper hlower hsrc => ?_
    have hne : ∀ j, j ∈ top :: rest → index ≠ j := by
      rintro j hj rfl
      exact hidx hj
    have hlow : r.Unperformed lower :=
      (h.pending lower (mem_cons_of_mem _ (mem_cons_of_mem _ hlower))).1
    rw [hr'.src upper (hne upper hupper), hsrc, hsource]
    apply swap_apply_of_ne_of_ne
    · intro heq
      have := T.dest_injective (h.lt hlow) (h.lt htop) heq
      exact (nodup_cons.mp hnodup).1 (this ▸ hlower)
    · exact fun heq => hne lower (mem_cons_of_mem _ hlower)
        (T.dest_injective (h.lt hlow) hlt heq).symm
  · intro j hj
    obtain ⟨hne, hjun⟩ := hother j hj
    rw [hr'.src j hne]
    exact (h.typed j hjun).swap (h.bank_src hun hconst) hconst hdestconst
  · intro j hj
    obtain ⟨hne, hjun⟩ := hother j hj
    rw [hr'.src j hne, hr'.state, hread j hjun]
    exact h.sources j hjun
  · intro j hj hjun
    by_cases hne : index = j
    · subst hne
      have hstate := hread index hun
      rw [swap_apply_left] at hstate
      rw [hr'.state, hstate, h.sources index hun]
    · rw [hunp j hne] at hjun
      rw [T.machine.read_congr (hloc _ ?_ ?_), h.done j hj hjun]
      · exact fun heq => hne (T.dest_injective hj hlt heq).symm
      · intro k hk heq
        exact hjun (T.dest_injective (h.lt hk) hj heq ▸ hk)
  · intro loc hdest
    rw [hloc loc (hdest index hlt).symm fun k hk => hdest k (h.lt hk), h.others loc hdest]
  · exact fun j hj => (hother j hj).2
  · intro j hj hjun p hp hsrc
    obtain ⟨hne, hjun⟩ := hother j hjun
    have hj' : j ∉ index :: top :: rest := by
      rw [mem_cons, not_or]
      exact ⟨Ne.symm hne, hj⟩
    rw [hr'.src j hne, swap_apply_def, if_neg (hfree j hj' hjun)] at hsrc
    split at hsrc
    · have hp' := (h.pending p (mem_cons_of_mem _ hp)).1
      exact absurd (T.dest_injective hlt (h.lt hp') hsrc ▸ hp) hidx
    · exact hsrc
  · intro j hj hjconst
    rw [hr'.src j (hother j hj).1, swap_apply_of_ne_of_ne
      (isConstant_ne hjconst hconst) (isConstant_ne hjconst hdestconst)]
    exact hjconst

end

open Checked List

variable {C : Type} [DecidableEq C] {V : Type} {T : Task C V} {stack : List ℕ} {r : Resolver C}

lemma Keeps.stack_length_le (h : Keeps T stack r) : stack.length ≤ T.moves.length := by
  have hsub : stack ⊆ List.range T.moves.length := by
    intro i hi
    exact mem_range.mpr (h.lt (h.pending i hi).1)
  have hperm := subperm_of_subset h.nodup hsub
  simpa using hperm.length_le

variable {index : ℕ}

/-- What holds above a pending move holds above the stack below it. -/
lemma Progress.pop {r' : Resolver C} (h : Progress T (index :: stack) r r')
    (hr : Keeps T (index :: stack) r) (hr' : Keeps T (index :: stack) r') :
    Progress T stack r r' := by
  refine ⟨h.unperformed, ?_, h.constants⟩
  intro i hi hun p hp hsrc
  by_cases hne : i = index
  · subst hne
    cases stack with
    | nil => cases hp
    | cons top rest =>
      rw [(isChain_cons_cons.mp hr.chain).1]
      rw [(isChain_cons_cons.mp hr'.chain).1] at hsrc
      exact hsrc
  · refine h.blockers i ?_ hun p (mem_cons_of_mem _ hp) hsrc
    rw [mem_cons, not_or]
    exact ⟨hne, hi⟩

lemma Keeps.isPending_iff (h : Keeps T stack r) {i : ℕ} (hun : r.Unperformed i) :
    (r.get i).isPending = true ↔ i ∈ stack := by
  rw [Move.isPending, Bool.and_eq_true, Bool.not_eq_true', ← Bool.not_eq_true,
    Location.isInvalid_iff, Location.isInvalid_iff]
  constructor
  · rintro ⟨hdest, -⟩
    by_contra hi
    rw [(h.active i hi hun).1] at hdest
    exact (bank_ne_none (T.bank_dest (h.lt hun))).1 hdest
  · intro hi
    exact ⟨(h.pending i hi).2.1, hun⟩

lemma Keeps.blockers_spec (perform : ℕ → Resolver C → Result (Resolver C))
    (hperform : ∀ i r, Keeps T (index :: stack) r → i ∉ index :: stack → r.Unperformed i →
      (r.get i).src = T.dest index →
      ∃ r', perform i r = .ok r' ∧ Keeps T (index :: stack) r' ∧
        Progress T (index :: stack) r r' ∧ ¬ r'.Unperformed i) (indices : List ℕ)
    (hindices : ∀ i ∈ indices, i < T.moves.length) (h : Keeps T (index :: stack) r) :
    ∃ r', indices.foldlM (fun r i => do
        let otherMove ← r.moveAt i
        if otherMove.blocks (T.dest index) && !otherMove.isPending then perform i r
        else .ok r) r = .ok r' ∧
      Keeps T (index :: stack) r' ∧ Progress T (index :: stack) r r' ∧
      ∀ i ∈ indices, i ∉ index :: stack → r'.Unperformed i → (r'.get i).src ≠ T.dest index := by
  induction indices generalizing r with
  | nil => exact ⟨r, rfl, h, Progress.refl .., by simp⟩
  | cons i indices ih =>
    rw [foldlM_cons, h.moveAt_eq (hindices i mem_cons_self), ok_bind]
    have hstep : ∃ r1, (if (r.get i).blocks (T.dest index) && !(r.get i).isPending then perform i r
          else .ok r) = .ok r1 ∧ Keeps T (index :: stack) r1 ∧
        Progress T (index :: stack) r r1 ∧
        (i ∉ index :: stack → r1.Unperformed i → (r1.get i).src ≠ T.dest index) := by
      split_ifs with hcond
      · rw [Bool.and_eq_true, Move.blocks_iff] at hcond
        obtain ⟨⟨hun, hsrc⟩, hpend⟩ := hcond
        have hi : i ∉ index :: stack := by
          rw [← h.isPending_iff hun]
          simpa using hpend
        obtain ⟨r1, hr1, hkeeps, hprog, hgone⟩ := hperform i r h hi hun hsrc
        exact ⟨r1, hr1, hkeeps, hprog, fun _ hun => absurd hun hgone⟩
      · refine ⟨r, rfl, h, Progress.refl .., ?_⟩
        intro hi hun hsrc
        apply hcond
        rw [Bool.and_eq_true, Move.blocks_iff, Bool.not_eq_true', ← Bool.not_eq_true,
          h.isPending_iff hun]
        exact ⟨⟨hun, hsrc⟩, hi⟩
    obtain ⟨r1, hr1, hkeeps1, hprogress1, hfree1⟩ := hstep
    obtain ⟨r', hr', hkeeps, hprog, hfree⟩ :=
      ih (fun j hj => hindices j (mem_cons_of_mem _ hj)) hkeeps1
    refine ⟨r', ?_, hkeeps, hprogress1.trans hprog, ?_⟩
    · rw [hr1, ok_bind, hr']
    · intro j hj hstack hun hsrc
      rcases mem_cons.mp hj with rfl | hj
      · exact hfree1 hstack (hprog.unperformed j hun)
          (hprog.blockers j hstack hun index mem_cons_self hsrc)
      · exact hfree j hj hstack hun hsrc

lemma Keeps.finish_spec {r1 : Resolver C} (registers : ScratchRegisters)
    (h : Keeps T (index :: stack) r) (hrest : Restored T r r1 index)
    (hfree : ∀ j, j ∉ index :: stack → r.Unperformed j → (r.get j).src ≠ T.dest index) :
    ∃ r', (if (r.get index).src = T.dest index then .ok (r1.setMove index .eliminated)
      else
        match r1.moves.find? fun otherMove => otherMove.blocks (T.dest index) with
        | some otherMove => do
            check otherMove.isPending
            emitSwap registers r1 index
        | none => emitMove registers r1 index) = .ok r' ∧
      Keeps T stack r' ∧ Progress T stack r r' ∧ ¬ r'.Unperformed index := by
  split_ifs with hsrc
  · exact ⟨_, rfl, h.eliminate_spec hrest hsrc⟩
  · obtain ⟨hun, -, -⟩ := h.pending index mem_cons_self
    split
    · rename_i otherMove hfind
      have hblocks := List.find?_some hfind
      obtain ⟨j, hj, rfl⟩ := (mem_moves_iff r1 otherMove).mp (mem_of_find?_eq_some hfind)
      rw [Move.blocks_iff, hrest.src] at hblocks
      have hne : index ≠ j := by
        rintro rfl
        exact hsrc hblocks.2
      have hjun : r.Unperformed j := hblocks.1
      have hjstack : j ∈ index :: stack := by
        by_contra hj
        exact hfree j hj hjun hblocks.2
      have hpend : (r1.get j).isPending = true := by
        rw [hrest.get, if_neg hne, h.isPending_iff hjun]
        exact hjstack
      rw [check_of hpend, ok_bind]
      cases stack with
      | nil => exact absurd (mem_singleton.mp hjstack).symm hne
      | cons top rest => exact h.emitSwap_spec registers hrest hfree
    · rename_i hfind
      refine h.emitMove_spec registers (.inl rfl) (nodup_cons.mp h.nodup).1 hun hrest ?_
      intro j _ hj heq
      have hblocks := List.find?_eq_none.mp hfind (r1.get j)
        ((mem_moves_iff r1 _).mpr ⟨j, hrest.length ▸ hj.lt, rfl⟩)
      rw [Move.blocks_iff, hrest.src] at hblocks
      exact hblocks ⟨hj, heq⟩

lemma performMove_spec (registers : ScratchRegisters) (fuel : ℕ) (h : Keeps T stack r)
    (hidx : index ∉ stack) (hun : r.Unperformed index)
    (hconst : (r.get index).src.isConstant = false)
    (htop : ∀ p ∈ stack.head?, (r.get index).src = T.dest p)
    (hfuel : T.moves.length ≤ fuel + stack.length) :
    ∃ r', performMove registers fuel index r = .ok r' ∧ Keeps T stack r' ∧
      Progress T stack r r' ∧ ¬ r'.Unperformed index := by
  induction fuel generalizing stack index r with
  | zero =>
    have hle := (h.markPending hidx hun hconst htop).stack_length_le
    rw [length_cons] at hle
    omega
  | succ fuel ih =>
    have hkeeps0 := h.markPending hidx hun hconst htop
    obtain ⟨hdest, hsrc⟩ := h.active index hidx hun
    have hlt := h.lt hun
    -- The asserts on entry.
    have hpend : (r.get index).isPending = false := by
      rw [← Bool.not_eq_true, h.isPending_iff hun]
      exact hidx
    have hok : (r.get index).src.isInvalid = false := by
      rw [← Bool.not_eq_true, Location.isInvalid_iff]
      exact hun
    have hredundant : (r.get index).isRedundant = false := by
      have hplace : (T.dest index).isInvalid = false := by
        rw [← Bool.not_eq_true, Location.isInvalid_iff]
        exact (bank_ne_none (T.bank_dest hlt)).1
      rw [Move.isRedundant, Move.isEliminated, hok, hdest, hplace]
      simpa using hsrc
    -- The blocking moves are performed one level further down.
    have hblockers := hkeeps0.blockers_spec (performMove registers fuel) ?_
      (List.range T.moves.length) (fun i hi => mem_range.mp hi)
    · obtain ⟨r1, hr1, hkeeps1, hprogress1, hfree1⟩ := hblockers
      obtain ⟨hun1, hdest1, -⟩ := hkeeps1.pending index mem_cons_self
      have hpending1 : (r1.get index).isPending = true :=
        (hkeeps1.isPending_iff hun1).mpr mem_cons_self
      have hrest : Restored T r1 (r1.setMove index { r1.get index with dest := T.dest index })
          index := ⟨r1.get_setMove hun1.lt _, r1.length_setMove index _, rfl⟩
      obtain ⟨r', hr', hkeeps, hprog, hgone⟩ := hkeeps1.finish_spec registers hrest
        fun j hj hun => hfree1 j (mem_range.mpr (hkeeps1.lt hun)) hj hun
      refine ⟨r', ?_, hkeeps, ?_, hgone⟩
      · rw [performMove, h.moveAt_eq hlt, ok_bind, hpend, hredundant, hok, hdest]
        simp only [Bool.not_false, check_true, ok_bind, Resolver.length_setMove, h.length]
        rw [hr1, ok_bind, hkeeps1.moveAt_eq hlt, ok_bind, hpending1, check_true, ok_bind]
        exact hr'
      · have hprogress0 : Progress T stack r
            (r.setMove index { r.get index with dest := .noLocation }) := by
          refine ⟨fun i hi => ?_, fun i _ _ p _ hsrc => ?_, fun i _ hi => ?_⟩
          · rwa [Resolver.unperformed_setMove hun.lt] at hi
          · rwa [Resolver.src_setMove hun.lt] at hsrc
          · rwa [Resolver.src_setMove hun.lt]
        exact (hprogress0.trans (hprogress1.pop hkeeps0 hkeeps1)).trans hprog
    · intro i r hkeeps hi hun hsrc
      refine ih hkeeps hi hun ?_ ?_ (by rw [length_cons]; omega)
      · rw [hsrc]
        exact (bank_ne_none (T.bank_dest hlt)).2
      · rintro p hp
        rw [List.head?_cons, Option.mem_some_iff] at hp
        rw [← hp, hsrc]

omit [DecidableEq C] in
lemma Resolver.isEliminated_iff (r : Resolver C) (i : ℕ) :
    (r.get i).isEliminated = false ↔ r.Unperformed i := by
  rw [Move.isEliminated, ← Bool.not_eq_true, Location.isInvalid_iff, Resolver.Unperformed]

section

variable (registers : ScratchRegisters) (indices : List ℕ)
  (hindices : ∀ i ∈ indices, i < T.moves.length)

include hindices

/-- The first loop leaves only moves of constants. -/
lemma mainLoop_spec (h : Keeps T [] r) :
    ∃ r', indices.foldlM (fun r i => do
        let move ← r.moveAt i
        if !move.isEliminated && !move.src.isConstant then
          performMove registers T.moves.length i r
        else .ok r) r = .ok r' ∧ Keeps T [] r' ∧ Progress T [] r r' ∧
      ∀ i ∈ indices, r'.Unperformed i → (r'.get i).src.isConstant = true := by
  induction indices generalizing r with
  | nil => exact ⟨r, rfl, h, Progress.refl .., by simp⟩
  | cons i indices ih =>
    rw [foldlM_cons, h.moveAt_eq (hindices i mem_cons_self), ok_bind]
    have hstep : ∃ r1, (if !(r.get i).isEliminated && !(r.get i).src.isConstant then
          performMove registers T.moves.length i r else .ok r) = .ok r1 ∧ Keeps T [] r1 ∧
        Progress T [] r r1 ∧ (r1.Unperformed i → (r1.get i).src.isConstant = true) := by
      split_ifs with hcond
      · rw [Bool.and_eq_true, Bool.not_eq_true', Bool.not_eq_true',
          Resolver.isEliminated_iff] at hcond
        obtain ⟨r1, hr1, hkeeps, hprog, hgone⟩ := performMove_spec registers T.moves.length h
          not_mem_nil hcond.1 hcond.2 (by simp) (by simp)
        exact ⟨r1, hr1, hkeeps, hprog, fun hun => absurd hun hgone⟩
      · refine ⟨r, rfl, h, Progress.refl .., ?_⟩
        intro hun
        rw [(Resolver.isEliminated_iff r i).mpr hun] at hcond
        simpa using hcond
    obtain ⟨r1, hr1, hkeeps1, hprogress1, hconst1⟩ := hstep
    obtain ⟨r', hr', hkeeps, hprog, hconst⟩ :=
      ih (fun j hj => hindices j (mem_cons_of_mem _ hj)) hkeeps1
    refine ⟨r', by rw [hr1, ok_bind, hr'], hkeeps, hprogress1.trans hprog, ?_⟩
    intro j hj hun
    rcases mem_cons.mp hj with rfl | hj
    · exact hprog.constants j hun (hconst1 (hprog.unperformed j hun))
    · exact hconst j hj hun

lemma constantLoop_spec (h : Keeps T [] r)
    (hconst : ∀ i, r.Unperformed i → (r.get i).src.isConstant = true) :
    ∃ r', indices.foldlM (fun r i => do
        let move ← r.moveAt i
        if !move.isEliminated then do
          check move.src.isConstant
          emitMove registers r i
        else .ok r) r = .ok r' ∧ Keeps T [] r' ∧ Progress T [] r r' ∧
      ∀ i ∈ indices, ¬ r'.Unperformed i := by
  induction indices generalizing r with
  | nil => exact ⟨r, rfl, h, Progress.refl .., by simp⟩
  | cons i indices ih =>
    rw [foldlM_cons, h.moveAt_eq (hindices i mem_cons_self), ok_bind]
    have hstep : ∃ r1, (if !(r.get i).isEliminated then do
          check (r.get i).src.isConstant
          emitMove registers r i
          else .ok r) = .ok r1 ∧ Keeps T [] r1 ∧ Progress T [] r r1 ∧ ¬ r1.Unperformed i := by
      split_ifs with hcond
      · rw [Bool.not_eq_true', Resolver.isEliminated_iff] at hcond
        rw [check_of (hconst i hcond), ok_bind]
        refine h.emitMove_spec registers (.inr rfl) not_mem_nil hcond ⟨?_, rfl, rfl⟩ ?_
        · intro j
          split_ifs with heq
          · rw [← heq, ← (h.active i not_mem_nil hcond).1]
          · rfl
        · intro j _ hj
          exact Location.isConstant_ne (hconst j hj) (bank_ne_none (T.bank_dest (h.lt hcond))).2
      · refine ⟨r, rfl, h, Progress.refl .., ?_⟩
        rw [← Resolver.isEliminated_iff]
        simpa using hcond
    obtain ⟨r1, hr1, hkeeps1, hprogress1, hgone1⟩ := hstep
    obtain ⟨r', hr', hkeeps, hprog, hgone⟩ := ih
      (fun j hj => hindices j (mem_cons_of_mem _ hj)) hkeeps1 fun j hj =>
        hprogress1.constants j hj (hconst j (hprogress1.unperformed j hj))
    refine ⟨r', by rw [hr1, ok_bind, hr'], hkeeps, hprogress1.trans hprog, ?_⟩
    intro j hj
    rcases mem_cons.mp hj with rfl | hj
    · exact fun hun => hgone1 (hprog.unperformed j hun)
    · exact hgone j hj

end

/-- Every move that is not redundant stays in one bank or loads a constant, and destinations differ.
-/
structure Assignment (C : Type) [DecidableEq C] where
  moves : List (Move C)
  quad : Bool
  consistent : ∀ move ∈ moves, move.isConsistent = true
  typed : ∀ move ∈ moves, move.isRedundant = false → Typed quad move.dest move.src
  distinct : ((moves.filter fun move => !move.isRedundant).map Move.dest).Nodup

/-- What an FPU register is given is a double, unless the FPU slots are quad slots. -/
def Assignment.DoublesFit (A : Assignment C) (machine : Machine C V) (initial : Location C → V) :
    Prop :=
  A.quad = false → ∀ move ∈ A.moves, move.isRedundant = false →
    bank false move.dest = some .floating →
      machine.low (machine.read initial move.src) = machine.read initial move.src

lemma Assignment.DoublesFit.fit {A : Assignment C} {machine : Machine C V}
    {initial : Location C → V} (h : A.DoublesFit machine initial) {move : Move C}
    (hmove : move ∈ A.moves) (hnonredundant : move.isRedundant = false) {loc : Location C}
    (hbank : bank A.quad loc = bank A.quad move.dest) :
    machine.fit loc (machine.read initial move.src) = machine.read initial move.src := by
  have htyped := (A.typed move hmove hnonredundant).1
  cases loc with
  | doubleStackSlot index =>
    cases hquad : A.quad with
    | true =>
      rw [hquad] at hbank htyped
      exact absurd hbank.symm htyped
    | false =>
      rw [hquad] at hbank
      exact h hquad move hmove hnonredundant hbank.symm
  | _ => rfl

def Assignment.task (A : Assignment C) (machine : Machine C V) (initial : Location C → V)
    (h : A.DoublesFit machine initial) : Task C V where
  moves := A.moves.filter fun move => !move.isRedundant
  quad := A.quad
  machine := machine
  initial := initial
  distinct := A.distinct
  typed := by
    intro move hmem
    rw [mem_filter, Bool.not_eq_true'] at hmem
    exact A.typed move hmem.1 hmem.2
  nonredundant := by
    intro move hmem
    rw [mem_filter, Bool.not_eq_true'] at hmem
    exact hmem.2
  fits := by
    intro move hmem loc
    rw [mem_filter, Bool.not_eq_true'] at hmem
    exact h.fit hmem.1 hmem.2

lemma Task.keeps_start (T : Task C V) : Keeps T [] ⟨T.moves, []⟩ := by
  have hstate : T.state ⟨T.moves, []⟩ = T.initial := rfl
  have hget : ∀ i, Resolver.get (⟨T.moves, []⟩ : Resolver C) i = T.moves.getD i .eliminated :=
    fun _ => rfl
  have hok : ∀ i < T.moves.length, (T.moves.getD i .eliminated).src ≠ .noLocation ∧
      (T.moves.getD i .eliminated).src ≠ (T.moves.getD i .eliminated).dest := by
    intro i hi
    have hmove := T.nonredundant _ (T.moves_getD_mem hi)
    rw [Move.isRedundant, Move.isEliminated, Bool.or_eq_false_iff, Bool.or_eq_false_iff,
      ← Bool.not_eq_true, Location.isInvalid_iff] at hmove
    exact ⟨hmove.1.1, by simpa using hmove.2⟩
  have hlt : ∀ i, Resolver.Unperformed (⟨T.moves, []⟩ : Resolver C) i → i < T.moves.length :=
    fun _ hi => hi.lt
  refine ⟨rfl, ?_, ?_, by simp, .nil, .nil, ?_, ?_, ?_, ?_⟩
  · intro i hi
    have hge : T.moves.length ≤ i := by
      by_contra hge
      exact hi (hok i (by omega)).1
    rw [hget, getD_eq_default _ _ hge]
  · intro i _ hi
    exact ⟨rfl, (hok i (hlt i hi)).2⟩
  · intro i hi
    exact T.typed _ (T.moves_getD_mem (hlt i hi))
  · intro i _
    rfl
  · intro i hi hperformed
    exact absurd (hok i hi).1 hperformed
  · intro loc _
    rw [hstate]

/-- Values of two halves, and no free scratch registers. -/
def halves : Machine ℕ (ℕ × ℕ) := ⟨fun c => (c, 0), fun v => (v.1, 0), fun _ => (0, 0)⟩

def quadCycle : Assignment ℕ where
  moves := [⟨.fpuRegister 0, .quadStackSlot 1⟩, ⟨.quadStackSlot 1, .fpuRegister 0⟩]
  quad := true
  consistent := by decide
  typed := by
    intro move hmove _
    fin_cases hmove <;> exact ⟨nofun, .inr rfl⟩
  distinct := by decide

end DartSdk.ParallelMoves
