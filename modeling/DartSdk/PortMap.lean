import DartSdk.Tables

/-!
The port map of the virtual machine (runtime/vm/port.cc): a table with open addressing from
port ids to message handlers, in which closed ports leave tombstones behind. Each operation
holds the lock of the map, so that operations follow one another. An access to a slot that
the table does not have is a failure of its own. Every open port can be reached from its home
without passing a free slot, and the load factor leaves a free slot after every operation.
-/

namespace DartSdk.Ports

open Checked Function

inductive PortState
  | kNewPort
  | kLivePort
  | kControlPort
  deriving DecidableEq

/-- The handler pointer of a slot: NULL, `deleted_entry_` or a message handler. -/
inductive Cell (H : Type)
  | null
  | deletedEntry
  | handler (h : H)
  deriving DecidableEq

namespace Cell

variable {H : Type}

def isNull : Cell H → Bool
  | null => true
  | _ => false

def isDeleted : Cell H → Bool
  | deletedEntry => true
  | _ => false

/-- A call on the handler. -/
def deref : Cell H → Result H
  | handler h => .ok h
  | _ => .error .fatal

end Cell

structure Entry (H : Type) where
  port : ℤ
  handler : Cell H
  state : PortState
  deriving DecidableEq

/-- The map with the number of live ports of each handler. -/
structure PortMap (H : Type) where
  map : List (Entry H)
  capacity : ℕ
  used : ℤ
  deleted : ℤ
  livePorts : H → ℤ

structure Handlers (H I : Type) where
  isCurrentIsolate : H → Bool
  isolate : H → Option I
  ownedByPortMap : H → Bool

def illegalPort : ℤ := 0

/-- A slot after `memset`. -/
def freeEntry {H : Type} : Entry H := ⟨0, .null, .kNewPort⟩

/-- A slot of which the port has been closed. -/
def Entry.markDeleted {H : Type} (entry : Entry H) : Entry H :=
  { entry with port := 0, handler := .deletedEntry }

section

variable {H I : Type}

def entryAt (map : List (Entry H)) (index : ℤ) : Result (Entry H) :=
  if index < 0 then .error .outOfBounds
  else match map[index.toNat]? with
    | some entry => .ok entry
    | none => .error .outOfBounds

def storeAt (map : List (Entry H)) (index : ℤ) (entry : Entry H) : Result (List (Entry H)) := do
  let _ ← entryAt map index
  .ok (map.set index.toNat entry)

def findPortBody (s : PortMap H) (port startIndex index : ℤ) : Result (ℤ ⊕ ℤ) := do
  let entry ← entryAt s.map index
  if entry.handler.isNull then .ok (.inr (-1))
  else if entry.port = port then .ok (.inr index)
  else do
    let next := (index + 1).tmod s.capacity
    check (next ≠ startIndex)
    .ok (.inl next)

/-- `FindPort`. The remainder has the sign of the port. -/
def findPort (s : PortMap H) (port : ℤ) : Result ℤ :=
  if port = illegalPort then .ok (-1)
  else
    let index := port.tmod s.capacity
    loop (findPortBody s port index) (s.capacity + 1) index

def firstUnusedBody (map : List (Entry H)) (capacity : ℕ) (index : ℤ) : Result (ℤ ⊕ ℤ) := do
  let entry ← entryAt map index
  if entry.port = 0 then .ok (.inr index) else .ok (.inl ((index + 1).tmod capacity))

/-- The search for a free or deleted slot, in `Rehash` and in `CreatePort`. -/
def firstUnused (map : List (Entry H)) (capacity : ℕ) (port : ℤ) : Result ℤ :=
  loop (firstUnusedBody map capacity) (capacity + 1) (port.tmod capacity)

def rehashEntry (newCapacity : ℕ) (entry : Entry H) (newPorts : List (Entry H)) :
    Result (List (Entry H)) :=
  if entry.port ≠ 0 then do
    let newIndex ← firstUnused newPorts newCapacity entry.port
    storeAt newPorts newIndex entry
  else .ok newPorts

def rehash (s : PortMap H) (newCapacity : ℕ) : Result (PortMap H) := do
  let newPorts ← forUp s.capacity (fun i newPorts => do
      let entry ← entryAt s.map i
      rehashEntry newCapacity entry newPorts) (List.replicate newCapacity freeEntry)
  .ok { s with map := newPorts, capacity := newCapacity, deleted := 0 }

/-- The id that a value of the random source stands for. -/
def portOfDraw (draw : ℕ) : ℤ := ((draw &&& 0x3fffffff : ℕ) : ℤ)

/-- The loop of `AllocatePort`, on the values that the random source yields. -/
def drawPort (s : PortMap H) : List ℕ → Result ℤ
  | [] => .error .diverges
  | draw :: draws =>
    if portOfDraw draw = 0 then drawPort s draws
    else do
      let index ← findPort s (portOfDraw draw)
      if 0 ≤ index then drawPort s draws else .ok (portOfDraw draw)

def allocatePort (s : PortMap H) (draws : List ℕ) : Result ℤ := do
  let result ← drawPort s draws
  check (result ≠ 0)
  let index ← findPort s result
  check (index < 0)
  .ok result

def maintainInvariants (s : PortMap H) : Result (PortMap H) :=
  let empty : ℤ := s.capacity - s.used - s.deleted
  if (s.capacity / 4 * 3 : ℕ) < s.used then rehash s (s.capacity * 2)
  else if empty < s.deleted then rehash s s.capacity
  else .ok s

def createPort (handler : H) (draws : List ℕ) (s : PortMap H) : Result (PortMap H × ℤ) := do
  let port ← allocatePort s draws
  let found ← findPort s port
  check (found < 0)
  let index ← firstUnused s.map s.capacity port
  check (0 ≤ index)
  check (index < s.capacity)
  let cur ← entryAt s.map index
  check (cur.port = 0)
  check (cur.handler.isNull || cur.handler.isDeleted)
  let map ← storeAt s.map index ⟨port, .handler handler, .kNewPort⟩
  let deleted := if cur.handler.isDeleted then s.deleted - 1 else s.deleted
  let s ← maintainInvariants { s with map := map, used := s.used + 1, deleted := deleted }
  .ok (s, port)

/-- The handler that a lookup finds, if any. -/
def lookup (port : ℤ) (s : PortMap H) : Result (Option H) := do
  let index ← findPort s port
  if index < 0 then .ok none
  else do
    let entry ← entryAt s.map index
    let handler ← entry.handler.deref
    .ok (some handler)

/-- `PostMessage`, with the handler that takes the message. -/
def postMessage (port : ℤ) (s : PortMap H) : Result (Option H) := do
  let index ← findPort s port
  if index < 0 then .ok none
  else do
    check (0 ≤ index)
    check (index < s.capacity)
    let entry ← entryAt s.map index
    check (entry.port ≠ 0)
    check (!entry.handler.isNull && !entry.handler.isDeleted)
    let handler ← entry.handler.deref
    .ok (some handler)

def isLocalPort (handlers : Handlers H I) (id : ℤ) (s : PortMap H) : Result Bool := do
  match ← lookup id s with
  | none => .ok false
  | some handler => .ok (handlers.isCurrentIsolate handler)

def getIsolate (handlers : Handlers H I) (id : ℤ) (s : PortMap H) : Result (Option I) := do
  match ← lookup id s with
  | none => .ok none
  | some handler => .ok (handlers.isolate handler)

variable [DecidableEq H]

def incrementLivePorts (livePorts : H → ℤ) (h : H) : H → ℤ :=
  Function.update livePorts h (livePorts h + 1)

def decrementLivePorts (livePorts : H → ℤ) (h : H) : H → ℤ :=
  Function.update livePorts h (livePorts h - 1)

def setPortState (port : ℤ) (state : PortState) (s : PortMap H) : Result (PortMap H) := do
  let index ← findPort s port
  check (0 ≤ index)
  let entry ← entryAt s.map index
  check (entry.state = .kNewPort)
  let map ← storeAt s.map index { entry with state := state }
  if state = .kLivePort then do
    let handler ← entry.handler.deref
    .ok { s with map := map, livePorts := incrementLivePorts s.livePorts handler }
  else .ok { s with map := map }

/-- `ClosePort`, with whether the port was open and whether the handler is told to go. -/
def closePort (handlers : Handlers H I) (port : ℤ) (s : PortMap H) :
    Result (PortMap H × Bool × Bool) := do
  let index ← findPort s port
  if index < 0 then .ok (s, false, false)
  else do
    check (index < s.capacity)
    let entry ← entryAt s.map index
    check (entry.port ≠ 0)
    let handler ← entry.handler.deref
    let map ← storeAt s.map index entry.markDeleted
    let livePorts :=
      if entry.state = .kLivePort then decrementLivePorts s.livePorts handler else s.livePorts
    let s ← maintainInvariants
      { s with map := map, used := s.used - 1, deleted := s.deleted + 1, livePorts := livePorts }
    .ok (s, true, !decide (0 < s.livePorts handler) && handlers.ownedByPortMap handler)

def closeSlot (handler : H) (i : ℕ) (s : PortMap H) : Result (PortMap H) := do
  let entry ← entryAt s.map i
  if entry.handler = .handler handler then do
    let map ← storeAt s.map i entry.markDeleted
    let livePorts :=
      if entry.state = .kLivePort then decrementLivePorts s.livePorts handler else s.livePorts
    .ok { s with map := map, used := s.used - 1, deleted := s.deleted + 1, livePorts := livePorts }
  else .ok s

def closePorts (handler : H) (s : PortMap H) : Result (PortMap H) := do
  let s ← forUp s.capacity (closeSlot handler) s
  maintainInvariants s

end

def kInitialCapacity : ℕ := 8

def init {H : Type} : PortMap H where
  map := List.replicate kInitialCapacity freeEntry
  capacity := kInitialCapacity
  used := 0
  deleted := 0
  livePorts := fun _ => 0

inductive Operation (H : Type)
  | createPort (handler : H) (draws : List ℕ)
  | setPortState (port : ℤ) (state : PortState)
  | closePort (port : ℤ)
  | closePorts (handler : H)
  | postMessage (port : ℤ)
  | isLocalPort (id : ℤ)
  | getIsolate (id : ℤ)

inductive Answer (H I : Type)
  | port (port : ℤ)
  | done
  | closed (wasOpen deletion : Bool)
  | posted (receiver : Option H)
  | isLocal (answer : Bool)
  | isolate (isolate : Option I)

def step {H I : Type} [DecidableEq H] (handlers : Handlers H I) :
    Operation H → PortMap H → Result (PortMap H × Answer H I)
  | .createPort handler draws, s => do
      let (s, port) ← createPort handler draws s
      .ok (s, .port port)
  | .setPortState port state, s => do
      let s ← setPortState port state s
      .ok (s, .done)
  | .closePort port, s => do
      let (s, wasOpen, deletion) ← closePort handlers port s
      .ok (s, .closed wasOpen deletion)
  | .closePorts handler, s => do
      let s ← closePorts handler s
      .ok (s, .done)
  | .postMessage port, s => do
      let receiver ← postMessage port s
      .ok (s, .posted receiver)
  | .isLocalPort id, s => do
      let answer ← isLocalPort handlers id s
      .ok (s, .isLocal answer)
  | .getIsolate id, s => do
      let isolate ← getIsolate handlers id s
      .ok (s, .isolate isolate)

open LinearProbing List Bool Int

variable {H : Type}

variable {map : List (Entry H)} {i u newCapacity : ℕ} {e x : Entry H}

lemma entryAt_of_getElem? (h : map[i]? = some e) : entryAt map (i : ℤ) = .ok e := by
  rw [entryAt, if_neg (by omega), toNat_natCast, h]

lemma storeAt_of_getElem? (h : map[i]? = some e)
    (x : Entry H) : storeAt map (i : ℤ) x = .ok (map.set i x) := by
  rw [storeAt, entryAt_of_getElem? h, ok_bind, toNat_natCast]

lemma exists_rest {α : Type} {l : List α} {a : α} (h : l[i]? = some a) (b : α) :
    ∃ rest, l.Perm (a :: rest) ∧ (l.set i b).Perm (b :: rest) := by
  obtain ⟨hi, rfl⟩ := List.getElem?_eq_some_iff.mp h
  refine ⟨l.take i ++ l.drop (i + 1), ?_, ?_⟩
  · conv_lhs => rw [← take_append_drop i l, drop_eq_getElem_cons hi]
    exact perm_middle
  · rw [set_eq_take_append_cons_drop, if_pos hi]
    exact perm_middle

def Entry.isOpen (e : Entry H) : Bool := !e.handler.isNull && !e.handler.isDeleted

variable {e : Entry H}

lemma Entry.isOpen_iff : e.isOpen = true ↔ ∃ h, e.handler = .handler h := by
  rcases e with ⟨p, _ | _ | h, st⟩ <;> simp [isOpen, Cell.isNull, Cell.isDeleted]

lemma Entry.isNull_of_isOpen (h : e.isOpen = true) : e.handler.isNull = false := by
  obtain ⟨h, hh⟩ := e.isOpen_iff.mp h
  rw [hh]
  rfl

/-- Open slots have a port id, the others the id zero. -/
structure Entry.Shaped (e : Entry H) : Prop where
  opened : e.isOpen = true → 0 < e.port
  unused : e.isOpen = false → e.port = 0

lemma Entry.Shaped.isOpen_of_port_ne (h : e.Shaped) (hp : e.port ≠ 0) : e.isOpen = true := by
  rw [← not_eq_false]
  exact fun hopen => hp (h.unused hopen)

lemma shaped_freeEntry : (freeEntry : Entry H).Shaped :=
  ⟨nofun, fun _ => rfl⟩

lemma shaped_markDeleted (e : Entry H) : e.markDeleted.Shaped :=
  ⟨nofun, fun _ => rfl⟩

def openEntries (map : List (Entry H)) : List (Entry H) := map.filter Entry.isOpen

def freeSlots (map : List (Entry H)) : ℕ := map.countP fun e => e.handler.isNull

def tombstones (map : List (Entry H)) : ℕ := map.countP fun e => e.handler.isDeleted

lemma count_slots (map : List (Entry H)) :
    (openEntries map).length + tombstones map + freeSlots map = map.length := by
  rw [openEntries, ← countP_eq_length_filter, tombstones, freeSlots]
  induction map with
  | nil => rfl
  | cons e rest ih =>
    simp only [countP_cons, length_cons]
    have hone : (if e.isOpen then 1 else 0) + (if e.handler.isDeleted then 1 else 0) +
        (if e.handler.isNull then 1 else 0) = 1 := by
      rcases e with ⟨p, _ | _ | h, st⟩ <;> rfl
    omega

/-- The slot at which the probes for a port start. -/
def home (m : ℕ) (port : ℤ) : ℕ := (port.tmod m).toNat

variable {m : ℕ}

lemma home_lt (hm : 0 < m) (port : ℤ) : home m port < m := by
  have hlt := tmod_lt_of_pos port (show (0 : ℤ) < m by omega)
  unfold home
  omega

variable {port : ℤ}

lemma tmod_eq_home (h : 0 ≤ port.tmod m) : port.tmod m = (home m port : ℤ) :=
  (toNat_of_nonneg h).symm

lemma tmod_nonneg_iff (port : ℤ) : 0 ≤ port.tmod m ↔ 0 ≤ port ∨ (m : ℤ) ∣ port := by
  rw [dvd_iff_tmod_eq_zero]
  constructor
  · intro h
    by_contra hcon
    have hneg := tmod_nonneg (m : ℤ) (show 0 ≤ -port by omega)
    rw [neg_tmod] at hneg
    omega
  · rintro (h | h)
    · exact tmod_nonneg _ h
    · omega

lemma next_index (m i : ℕ) : ((i : ℤ) + 1).tmod (m : ℤ) = (((i + 1) % m : ℕ) : ℤ) := by
  rfl

def IsFree (e : Entry H) : Prop := e.handler.isNull = true

variable {s : PortMap H}

lemma findPort_of_firstAt (hcap : s.capacity = s.map.length) (hport : port ≠ illegalPort)
    (hsign : 0 ≤ port.tmod s.capacity)
    (h : FirstAt (fun e => IsFree e ∨ e.port = port) s.map (home s.map.length port) u e) :
    findPort s port =
      .ok (if e.handler.isNull then -1
        else (slot s.map.length (home s.map.length port) u : ℤ)) := by
  rw [hcap] at hsign
  have hlt := h.lt
  have hhome : home s.map.length port < s.map.length := home_lt (by omega) port
  have hwalk := loop_along (findPortBody s port (home s.map.length port : ℤ))
    (fun j => (slot s.map.length (home s.map.length port) j : ℤ)) (u := u)
    (r := if e.handler.isNull then -1 else (slot s.map.length (home s.map.length port) u : ℤ))
    ?_ ?_ (s.map.length + 1) (by omega)
  · rw [slot_zero hhome] at hwalk
    rw [findPort, if_neg hport, hcap, tmod_eq_home hsign]
    exact hwalk
  · intro j hj
    have hb := List.getElem?_eq_getElem (slot_lt hhome j)
    obtain ⟨hfree, hother⟩ := not_or.mp (h.before j hj _ hb)
    rw [IsFree] at hfree
    have hne : ((slot s.map.length (home s.map.length port) (j + 1) : ℕ) : ℤ) ≠
        home s.map.length port := by
      exact_mod_cast slot_ne_home hhome (Nat.succ_pos j) (by omega)
    rw [findPortBody, entryAt_of_getElem? hb, ok_bind, if_neg hfree, if_neg hother, hcap,
      next_index, slot_succ]
    dsimp only
    rw [check_of (decide_eq_true hne), ok_bind]
  · rw [findPortBody, entryAt_of_getElem? h.found, ok_bind]
    cases hnull : e.handler.isNull with
    | true => rfl
    | false =>
      rcases h.holds with hfree | heq
      · exact absurd hfree (by rw [IsFree, hnull]; decide)
      · simp only [heq, if_true, false_eq_true, if_false]

lemma findPort_of_tmod_neg (h : port.tmod s.capacity < 0) :
    findPort s port = .error .outOfBounds := by
  have hport : port ≠ illegalPort := by
    rintro rfl
    simp [illegalPort] at h
  rw [findPort, if_neg hport]
  simp only [loop, findPortBody, entryAt, if_pos h]
  rfl

variable {map : List (Entry H)}

lemma firstUnused_of_firstAt (hsign : 0 ≤ port.tmod map.length)
    (h : FirstAt (fun e => e.port = 0) map (home map.length port) u e) :
    firstUnused map map.length port = .ok (slot map.length (home map.length port) u : ℤ) := by
  have hlt := h.lt
  have hhome : home map.length port < map.length := home_lt (by omega) port
  have hwalk := loop_along (firstUnusedBody map map.length)
    (fun j => (slot map.length (home map.length port) j : ℤ)) (u := u)
    (r := (slot map.length (home map.length port) u : ℤ)) ?_ ?_ (map.length + 1) (by omega)
  · rw [slot_zero hhome] at hwalk
    rw [firstUnused, tmod_eq_home hsign]
    exact hwalk
  · intro j hj
    have hb := List.getElem?_eq_getElem (slot_lt hhome j)
    rw [firstUnusedBody, entryAt_of_getElem? hb, ok_bind, if_neg (h.before j hj _ hb), next_index,
      slot_succ]
  · rw [firstUnusedBody, entryAt_of_getElem? h.found, ok_bind, if_pos h.holds]

/-- A table in which every open port can be reached. -/
structure Layout (map : List (Entry H)) : Prop where
  shaped : ∀ e ∈ map, e.Shaped
  reached : ∀ i e, map[i]? = some e → e.isOpen = true →
    Reached IsFree map (home map.length e.port) i

lemma layout_replicate (n : ℕ) : Layout (List.replicate n (freeEntry : Entry H)) where
  shaped e he := by
    rw [(mem_replicate.mp he).2]
    exact shaped_freeEntry
  reached i e he hopen := by
    rw [(mem_replicate.mp (mem_of_getElem? he)).2] at hopen
    exact Bool.noConfusion hopen

lemma Layout.set (h : Layout map) (i : ℕ) (hx : x.Shaped) (hnull : ¬ IsFree x)
    (hreached : x.isOpen = true → Reached IsFree map (home map.length x.port) i) :
    Layout (map.set i x) where
  shaped e he := by
    rcases mem_or_eq_of_mem_set he with hold | rfl
    · exact h.shaped e hold
    · exact hx
  reached j e he hopen := by
    rw [List.length_set]
    rw [List.getElem?_set] at he
    split_ifs at he with hsame hin
    · cases he
      subst hsame
      exact (hreached hopen).set hnull
    · exact (h.reached j e he hopen).set hnull

lemma Layout.markDeleted (h : Layout map) (i : ℕ) (e : Entry H) :
    Layout (map.set i e.markDeleted) :=
  h.set i (shaped_markDeleted e) nofun
    nofun

lemma Layout.findPort_spec (h : Layout s.map) (hcap : s.capacity = s.map.length)
    (hfree : ∃ e ∈ s.map, IsFree e) (hsign : 0 ≤ port.tmod s.capacity) :
    (findPort s port = .ok (-1) ∧ ∀ e ∈ openEntries s.map, e.port ≠ port) ∨
      ∃ (i : ℕ) (e : Entry H), findPort s port = .ok (i : ℤ) ∧ s.map[i]? = some e ∧
        e.isOpen = true ∧ e.port = port := by
  by_cases hport : port = 0
  · refine .inl ⟨if_pos hport, fun e he heq => ?_⟩
    obtain ⟨hmem, hopen⟩ := mem_filter.mp he
    have := (h.shaped e hmem).opened hopen
    omega
  obtain ⟨e0, he0, hfree0⟩ := hfree
  have hlen : 0 < s.map.length := length_pos_of_mem he0
  obtain ⟨u, e, hfirst⟩ := exists_firstAt (P := fun e => IsFree e ∨ e.port = port)
    (home_lt hlen port) ⟨e0, he0, .inl hfree0⟩
  have hfind := findPort_of_firstAt hcap hport hsign hfirst
  cases hnull : e.handler.isNull with
  | true =>
    refine .inl ⟨by rw [hfind, hnull, if_pos rfl], fun e' he' heq => ?_⟩
    -- The port would have been reached before the free slot.
    obtain ⟨hmem, hopen⟩ := mem_filter.mp he'
    obtain ⟨i, hi⟩ := mem_iff_getElem?.mp hmem
    have hreached := h.reached i e' hi hopen
    rw [heq] at hreached
    exact hfirst.not_gap hreached hi heq
      (by rw [IsFree, Entry.isNull_of_isOpen hopen]; decide) hnull
  | false =>
    have heq : e.port = port := hfirst.holds.resolve_left (by rw [IsFree, hnull]; decide)
    refine .inr ⟨slot s.map.length (home s.map.length port) u, e, ?_, hfirst.found, ?_, heq⟩
    · rw [hfind, hnull, if_neg (by decide)]
    · exact (h.shaped e (mem_of_getElem? hfirst.found)).isOpen_of_port_ne (by omega)

lemma Layout.insert (h : Layout map) (hunused : ∃ e ∈ map, e.port = 0) (hopen : x.isOpen = true)
    (hpos : 0 < x.port) :
    ∃ (i : ℕ) (cur : Entry H), firstUnused map map.length x.port = .ok (i : ℤ) ∧
      map[i]? = some cur ∧ cur.port = 0 ∧ Layout (map.set i x) := by
  obtain ⟨e0, he0, hzero⟩ := hunused
  have hlen : 0 < map.length := length_pos_of_mem he0
  obtain ⟨u, cur, hfirst⟩ := exists_firstAt (P := fun e => e.port = 0)
    (home_lt hlen x.port) ⟨e0, he0, hzero⟩
  refine ⟨slot map.length (home map.length x.port) u, cur,
    firstUnused_of_firstAt (tmod_nonneg _ hpos.le) hfirst, hfirst.found, hfirst.holds, ?_⟩
  refine h.set _ ⟨fun _ => hpos, fun hclosed => ?_⟩
    (by rw [IsFree, Entry.isNull_of_isOpen hopen]; decide) fun _ => ?_
  · rw [hopen] at hclosed
    cases hclosed
  · have hreached : Reached (fun e => e.port = 0) map _ _ := hfirst.reached fun b hb => hb
    obtain ⟨v, hv, hslot, hpre⟩ := hreached
    refine ⟨v, hv, hslot, fun j hj b hb hfree => hpre j hj b hb ?_⟩
    refine (h.shaped b (mem_of_getElem? hb)).unused ?_
    rw [Entry.isOpen, hfree]
    rfl

variable {rest : List (Entry H)}

lemma isOpen_of_perm (h : map.Perm (e :: rest))
    (hopen : e.isOpen = true) : (openEntries map).Perm (e :: openEntries rest) := by
  have hfilter := h.filter Entry.isOpen
  rwa [filter_cons_of_pos hopen] at hfilter

lemma not_isOpen_of_perm (h : map.Perm (e :: rest))
    (hopen : e.isOpen = false) : (openEntries map).Perm (openEntries rest) := by
  have hfilter := h.filter Entry.isOpen
  rwa [filter_cons_of_neg (by rw [hopen]; decide)] at hfilter

lemma tombstones_of_perm (h : map.Perm (e :: rest)) :
    tombstones map = tombstones rest + if e.handler.isDeleted then 1 else 0 := by
  unfold tombstones
  rw [h.countP_eq, countP_cons]

lemma Layout.isOpen_of_port_eq (h : Layout map)
    (he : e ∈ map) (hzero : e.port = 0) : e.isOpen = false := by
  rw [← not_eq_true]
  intro hopen
  have := (h.shaped e he).opened hopen
  omega

lemma Layout.exists_unused (h : Layout map)
    (hlt : (openEntries map).length < map.length) : ∃ e ∈ map, e.port = 0 := by
  rw [openEntries, length_filter_lt_length_iff_exists] at hlt
  obtain ⟨e, he, hopen⟩ := hlt
  exact ⟨e, he, (h.shaped e he).unused (by simpa using hopen)⟩

/-- The new table of a rehash after the first `i` slots of the old one. -/
structure Rehashed (map : List (Entry H)) (newCapacity i : ℕ) (newPorts : List (Entry H)) :
    Prop where
  length : newPorts.length = newCapacity
  layout : Layout newPorts
  openPerm : (openEntries newPorts).Perm (openEntries (map.take i))
  tombstones : tombstones newPorts = 0

lemma rehashed_replicate (map : List (Entry H)) (newCapacity : ℕ) :
    Rehashed map newCapacity 0 (List.replicate newCapacity freeEntry) where
  length := length_replicate
  layout := layout_replicate newCapacity
  openPerm := by
    rw [openEntries, filter_replicate_of_neg Bool.false_ne_true]
    rfl
  tombstones := by
    rw [tombstones, countP_replicate]
    exact if_neg Bool.false_ne_true

lemma Rehashed.step {newPorts : List (Entry H)}
    (h : Rehashed map newCapacity i newPorts) (hshaped : e.Shaped) (he : map[i]? = some e)
    (hroom : (openEntries map).length < newCapacity) :
    ∃ newPorts', rehashEntry newCapacity e newPorts = .ok newPorts' ∧
      Rehashed map newCapacity (i + 1) newPorts' := by
  have htake : openEntries (map.take (i + 1)) = openEntries (map.take i) ++ openEntries [e] := by
    rw [take_add_one, he, openEntries, filter_append]
    rfl
  have hlen : (openEntries newPorts).length < newPorts.length := by
    have hsub := ((take_sublist i map).filter Entry.isOpen).length_le
    rw [h.openPerm.length_eq, h.length]
    exact lt_of_le_of_lt hsub hroom
  by_cases hport : e.port = 0
  · refine ⟨newPorts, if_neg (not_not.mpr hport), h.length, h.layout, ?_, h.tombstones⟩
    have hclosed : e.isOpen = false := by
      rw [← not_eq_true]
      intro hopen
      have := hshaped.opened hopen
      omega
    rw [htake, openEntries, openEntries, openEntries,
      filter_cons_of_neg (by rw [hclosed]; decide), filter_nil, append_nil]
    exact h.openPerm
  · have hopen := hshaped.isOpen_of_port_ne hport
    obtain ⟨j, cur, hfirst, hcur, hzero, hlayout⟩ :=
      h.layout.insert (h.layout.exists_unused hlen) hopen (hshaped.opened hopen)
    obtain ⟨rest, hold, hnew⟩ := exists_rest hcur e
    have hclosed := h.layout.isOpen_of_port_eq (mem_of_getElem? hcur) hzero
    refine ⟨newPorts.set j e, ?_, ?_, hlayout, ?_, ?_⟩
    · rw [rehashEntry, if_pos hport, ← h.length, hfirst, ok_bind, storeAt_of_getElem? hcur]
    · rw [List.length_set, h.length]
    · have hperm : (openEntries (newPorts.set j e)).Perm (e :: openEntries (map.take i)) :=
        (isOpen_of_perm hnew hopen).trans
          (((not_isOpen_of_perm hold hclosed).symm.trans h.openPerm).cons e)
      rw [htake, openEntries, openEntries, openEntries, filter_cons_of_pos hopen, filter_nil]
      exact hperm.trans (perm_append_singleton e _).symm
    · have hnone := h.tombstones
      rw [tombstones_of_perm hold] at hnone
      obtain ⟨handler, hhandler⟩ := Entry.isOpen_iff.mp hopen
      rw [tombstones_of_perm hnew, hhandler]
      exact (Nat.eq_zero_of_add_eq_zero hnone).1

lemma Layout.rehash_spec (h : Layout s.map) (hcap : s.capacity = s.map.length)
    (hroom : (openEntries s.map).length < newCapacity) :
    ∃ newPorts, rehash s newCapacity =
        .ok { s with map := newPorts, capacity := newCapacity, deleted := 0 } ∧
      newPorts.length = newCapacity ∧ Layout newPorts ∧
      (openEntries newPorts).Perm (openEntries s.map) ∧ tombstones newPorts = 0 := by
  obtain ⟨newPorts, hloop, hdone⟩ := forUp_spec
    (fun i newPorts => do
      let entry ← entryAt s.map i
      rehashEntry newCapacity entry newPorts)
    (Rehashed s.map newCapacity) s.map.length (rehashed_replicate s.map newCapacity) (by
      intro i hi newPorts hi'
      have he := List.getElem?_eq_getElem hi
      rw [entryAt_of_getElem? he, ok_bind]
      exact hi'.step (h.shaped _ (getElem_mem hi)) he hroom)
  refine ⟨newPorts, ?_, hdone.length, hdone.layout, ?_, hdone.tombstones⟩
  · rw [rehash, hcap, hloop, ok_bind]
  · have hperm := hdone.openPerm
    rwa [take_length] at hperm

end DartSdk.Ports
