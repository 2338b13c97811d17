import DartSdk.Maps

/-!
The classes `_SplayTree` and `SplayTreeMap` of sdk/lib/collection/splay_tree.dart, with the
loops of runtime/lib/collection_patch.dart, as sorted finite maps in re-entrant programs. Top-down
splaying hangs the nodes that it passes on two trees, at their ends: such a tree is the list of its
nodes from the end to the dummy node, each with the one child that stays. A lookup with an object
that is not a valid key is one of `none`. A pending `putIfAbsent` notices changes of the keys, at
which it throws, and splaying, after which it compares again. It does not notice `firstKey` and
`lastKey`, which bring another node to the root, so a callback that calls them has to splay.
-/

namespace DartSdk.SplayTree

section

open SortedMaps

variable {K V : Type}

inductive Tree (K V : Type)
  | null
  | node (left : Tree K V) (key : K) (value : V) (right : Tree K V)
  deriving DecidableEq

inductive Error
  | assertion
  | nullDereference
  | concurrentModification
  deriving DecidableEq

structure State (K V : Type) where
  root : Tree K V
  count : ℕ
  modificationCount : ℕ
  splayCount : ℕ
  deriving DecidableEq

def initial : State K V := ⟨.null, 0, 0, 0⟩

/-- A node with the child that it keeps. -/
structure Link (K V : Type) where
  child : Tree K V
  key : K
  value : V

/-- Where the loop of `_splay` stops: the last comparison, the current node, and the links of both
trees. -/
structure Splayed (K V : Type) where
  comp : ℤ
  lefts : List (Link K V)
  left : Tree K V
  key : K
  value : V
  right : Tree K V
  rights : List (Link K V)

section

variable (C : Comparator K)

/-- `while (true)` of `_splay` at a node, given by its parts. -/
def splayLoop (key : K) (lefts rights : List (Link K V)) :
    Tree K V → K → V → Tree K V → Splayed K V
  | left, k, v, right =>
    if C.compare k key > 0 then
      match left with
      | .null => ⟨C.compare k key, lefts, .null, k, v, right, rights⟩
      | .node ll lk lv lr =>
        if C.compare lk key > 0 then
          match ll with
          | .null => ⟨C.compare lk key, lefts, .null, lk, lv, .node lr k v right, rights⟩
          | .node lll llk llv llr =>
            splayLoop key lefts (⟨.node lr k v right, lk, lv⟩ :: rights) lll llk llv llr
        else splayLoop key lefts (⟨right, k, v⟩ :: rights) ll lk lv lr
    else if C.compare k key < 0 then
      match right with
      | .null => ⟨C.compare k key, lefts, left, k, v, .null, rights⟩
      | .node rl rk rv rr =>
        if C.compare rk key < 0 then
          match rr with
          | .null => ⟨C.compare rk key, lefts, .node left k v rl, rk, rv, .null, rights⟩
          | .node rrl rrk rrv rrr =>
            splayLoop key (⟨.node left k v rl, rk, rv⟩ :: lefts) rights rrl rrk rrv rrr
        else splayLoop key (⟨left, k, v⟩ :: lefts) rights rl rk rv rr
    else ⟨C.compare k key, lefts, left, k, v, right, rights⟩
  termination_by left _ _ right => sizeOf left + sizeOf right

/-- The tree of the links to the left, with a subtree at its end. -/
def closeLeft (lefts : List (Link K V)) (t : Tree K V) : Tree K V :=
  lefts.foldl (fun t link => .node link.child link.key link.value t) t

def closeRight (rights : List (Link K V)) (t : Tree K V) : Tree K V :=
  rights.foldl (fun t link => .node t link.key link.value link.child) t

def assemble (r : Splayed K V) : Tree K V :=
  .node (closeLeft r.lefts r.left) r.key r.value (closeRight r.rights r.right)

def splay (s : State K V) (key : K) : ℤ × State K V :=
  match s.root with
  | .null => (-1, s)
  | .node left k v right =>
    let r := splayLoop C key [] [] left k v right
    (r.comp, { s with root := assemble r, splayCount := s.splayCount + 1 })

end

def splayMin : Tree K V → K → V → Tree K V → Tree K V
  | .null, k, v, right => .node .null k v right
  | .node ll lk lv lr, k, v, right => splayMin ll lk lv (.node lr k v right)

def splayMax (left : Tree K V) (k : K) (v : V) : Tree K V → Tree K V
  | .null => .node left k v .null
  | .node rl rk rv rr => splayMax (.node left k v rl) rk rv rr

def addNewRoot (s : State K V) (key : K) (value : V) (comp : ℤ) : State K V :=
  { s with
    root := match s.root with
      | .null => .node .null key value .null
      | .node left k v right =>
        if comp < 0 then .node (.node left k v .null) key value right
        else .node left key value (.node .null k v right)
    count := s.count + 1
    modificationCount := s.modificationCount + 1 }

/-- The tree that `_remove` makes of the children of the root. -/
def join (left right : Tree K V) : Tree K V :=
  match left with
  | .null => right
  | .node ll lk lv lr =>
    match splayMax ll lk lv lr with
    | .null => .null
    | .node l k v _ => .node l k v right

/-- The last key on the way to the right. -/
def rightmost (k : K) : Tree K V → K
  | .null => k
  | .node _ k' _ right => rightmost k' right

def leftmost (k : K) : Tree K V → K
  | .null => k
  | .node left k' _ _ => leftmost k' left

def lastOf : Tree K V → Option K
  | .null => none
  | .node _ k _ right => some (rightmost k right)

def firstOf : Tree K V → Option K
  | .null => none
  | .node left k _ _ => some (leftmost k left)

section

variable (C : Comparator K)

/-- `operator []`. -/
def lookup (s : State K V) : Option K → Except Error (Option V × State K V)
  | none => .ok (none, s)
  | some key =>
    match s.root with
    | .null => .ok (none, s)
    | .node .. =>
      let (comp, s) := splay C s key
      if comp = 0 then
        match s.root with
        | .null => .error .nullDereference
        | .node _ _ v _ => .ok (some v, s)
      else .ok (none, s)

def containsKey (s : State K V) : Option K → Bool × State K V
  | none => (false, s)
  | some key =>
    let (comp, s) := splay C s key
    (comp = 0, s)

/-- `operator []=`. -/
def assign (s : State K V) (key : K) (value : V) : Except Error (State K V) :=
  let (comp, s) := splay C s key
  if comp = 0 then
    match s.root with
    | .null => .error .nullDereference
    | .node left k _ right => .ok { s with root := .node left k value right }
  else .ok (addNewRoot s key value comp)

/-- `remove`, with the value of the node that `_remove` takes out. -/
def remove (s : State K V) : Option K → Except Error (Option V × State K V)
  | none => .ok (none, s)
  | some key =>
    match s.root with
    | .null => .ok (none, s)
    | .node .. =>
      let (comp, s) := splay C s key
      if comp ≠ 0 then .ok (none, s)
      else
        match s.root with
        | .null => .error .nullDereference
        | .node left _ v right =>
          .ok (some v, { s with
            root := join left right
            count := s.count - 1
            modificationCount := s.modificationCount + 1 })

def clear (s : State K V) : State K V :=
  { s with root := .null, count := 0, modificationCount := s.modificationCount + 1 }

def firstKey (s : State K V) : Except Error (Option K × State K V) :=
  match s.root with
  | .null => .ok (none, s)
  | .node left k v right =>
    match splayMin left k v right with
    | .null => .error .nullDereference
    | .node l k v r => .ok (some k, { s with root := .node l k v r })

def lastKey (s : State K V) : Except Error (Option K × State K V) :=
  match s.root with
  | .null => .ok (none, s)
  | .node left k v right =>
    match splayMax left k v right with
    | .null => .error .nullDereference
    | .node l k v r => .ok (some k, { s with root := .node l k v r })

def lastKeyBefore (s : State K V) (key : K) : Except Error (Option K × State K V) :=
  match s.root with
  | .null => .ok (none, s)
  | .node .. =>
    let (comp, s) := splay C s key
    match s.root with
    | .null => .error .nullDereference
    | .node left k _ _ =>
      if comp < 0 then .ok (some k, s) else .ok (lastOf left, s)

def firstKeyAfter (s : State K V) (key : K) : Except Error (Option K × State K V) :=
  match s.root with
  | .null => .ok (none, s)
  | .node .. =>
    let (comp, s) := splay C s key
    match s.root with
    | .null => .error .nullDereference
    | .node _ k _ right =>
      if comp > 0 then .ok (some k, s) else .ok (firstOf right, s)

end

/-- What `putIfAbsent` holds on to while its callback runs. -/
structure Context (K : Type) where
  key : K
  comp : ℤ
  modificationCount : ℕ
  splayCount : ℕ

inductive Operation (K V : Type)
  | lookup (key : Option K)
  | containsKey (key : Option K)
  | assign (key : K) (value : V)
  | remove (key : Option K)
  | clear
  | firstKey
  | lastKey
  | lastKeyBefore (key : K)
  | firstKeyAfter (key : K)
  | length

inductive Answer (K V : Type)
  | void
  | flag (present : Bool)
  | value (v : Option V)
  | key (k : Option K)
  | count (n : ℕ)

section

variable (C : Comparator K)

def Operation.run (o : Operation K V) (s : State K V) : Except Error (Answer K V × State K V) :=
  match o with
  | .lookup key => do
      let (v, s) ← SplayTree.lookup C s key
      .ok (.value v, s)
  | .containsKey key =>
    let (present, s) := SplayTree.containsKey C s key
    .ok (.flag present, s)
  | .assign key value => do
      let s ← SplayTree.assign C s key value
      .ok (.void, s)
  | .remove key => do
      let (v, s) ← SplayTree.remove C s key
      .ok (.value v, s)
  | .clear => .ok (.void, SplayTree.clear s)
  | .firstKey => do
      let (k, s) ← SplayTree.firstKey s
      .ok (.key k, s)
  | .lastKey => do
      let (k, s) ← SplayTree.lastKey s
      .ok (.key k, s)
  | .lastKeyBefore key => do
      let (k, s) ← SplayTree.lastKeyBefore C s key
      .ok (.key k, s)
  | .firstKeyAfter key => do
      let (k, s) ← SplayTree.firstKeyAfter C s key
      .ok (.key k, s)
  | .length => .ok (.count s.count, s)

def putIfAbsentStart (key : K) (s : State K V) : Except Error ((V ⊕ Context K) × State K V) :=
  let (comp, s) := splay C s key
  if comp = 0 then
    match s.root with
    | .null => .error .nullDereference
    | .node _ _ v _ => .ok (.inl v, s)
  else .ok (.inr ⟨key, comp, s.modificationCount, s.splayCount⟩, s)

def putIfAbsentFinish (c : Context K) (value : V) (s : State K V) : Except Error (State K V) :=
  if c.modificationCount ≠ s.modificationCount then .error .concurrentModification
  else if c.splayCount ≠ s.splayCount then
    let (comp, s) := splay C s c.key
    if comp ≠ 0 then .ok (addNewRoot s c.key value comp) else .error .assertion
  else .ok (addNewRoot s c.key value c.comp)

def implementation :
    Reentrant.Implementation (State K V) K V (Operation K V) (Answer K V) (Context K) Error where
  perform := Operation.run C
  start := putIfAbsentStart C
  finish := putIfAbsentFinish C

end

end

open SortedMaps List

variable {K V : Type} {C : Comparator K}

/-- The associations of a tree from left to right. -/
def Tree.entries : Tree K V → List (K × V)
  | .null => []
  | .node left k v right => left.entries ++ (k, v) :: right.entries

def leftEntries : List (Link K V) → List (K × V)
  | [] => []
  | link :: lefts => leftEntries lefts ++ (link.child.entries ++ [(link.key, link.value)])

def rightEntries : List (Link K V) → List (K × V)
  | [] => []
  | link :: rights => (link.key, link.value) :: (link.child.entries ++ rightEntries rights)

lemma closeLeft_entries (lefts : List (Link K V)) (t : Tree K V) :
    (closeLeft lefts t).entries = leftEntries lefts ++ t.entries := by
  induction lefts generalizing t with
  | nil => rfl
  | cons link lefts ih =>
    change (closeLeft lefts _).entries = _
    rw [ih, leftEntries, Tree.entries]
    simp

lemma closeRight_entries (rights : List (Link K V)) (t : Tree K V) :
    (closeRight rights t).entries = t.entries ++ rightEntries rights := by
  induction rights generalizing t with
  | nil => simp [closeRight, rightEntries]
  | cons link rights ih =>
    change (closeRight rights _).entries = _
    rw [ih, rightEntries, Tree.entries]
    simp

/-- All associations while the loop is at a node. -/
def loopEntries (lefts rights : List (Link K V)) (left : Tree K V) (k : K) (v : V)
    (right : Tree K V) : List (K × V) :=
  leftEntries lefts ++ (left.entries ++ (k, v) :: right.entries) ++ rightEntries rights

/-- The links on the left are below the key and those on the right above it. -/
structure Passed (C : Comparator K) (key : K) (lefts rights : List (Link K V)) : Prop where
  left : ∀ p ∈ leftEntries lefts, C.compare p.1 key < 0
  right : ∀ p ∈ rightEntries rights, 0 < C.compare p.1 key

section

variable {k key : K} {lefts rights : List (Link K V)} {v : V}

variable {left right : Tree K V}

lemma Passed.linkLeft (h : Passed C key lefts rights) (hk : C.compare k key < 0)
    (hsort : Sorted C (leftEntries (⟨left, k, v⟩ :: lefts))) :
    Passed C key (⟨left, k, v⟩ :: lefts) rights := by
  refine ⟨fun p hp => ?_, h.right⟩
  rw [leftEntries, ← append_assoc] at hp hsort
  rcases mem_append.mp hp with hp | hp
  · exact hsort.below_of_le hk.le p hp
  · rw [mem_singleton.mp hp]
    exact hk

lemma Passed.linkRight (h : Passed C key lefts rights) (hk : 0 < C.compare k key)
    (hsort : Sorted C (rightEntries (⟨right, k, v⟩ :: rights))) :
    Passed C key lefts (⟨right, k, v⟩ :: rights) := by
  refine ⟨h.left, fun p hp => ?_⟩
  rcases mem_cons.mp hp with rfl | hp
  · exact hk
  · exact @Sorted.above_of_ge _ _ _ [] _ _ _ _ hsort hk.le p hp

lemma sorted_links (h : Sorted C (loopEntries lefts rights left k v right)) :
    Sorted C (leftEntries lefts) ∧ Sorted C (rightEntries rights) := by
  obtain ⟨h1, hright, -⟩ := pairwise_append.mp h
  exact ⟨(pairwise_append.mp h1).1, hright⟩

/-- What the loop ends with. -/
structure Stopped (C : Comparator K) (key : K) (l : List (K × V)) (r : Splayed K V) : Prop where
  entries : loopEntries r.lefts r.rights r.left r.key r.value r.right = l
  comp : r.comp = C.compare r.key key
  passed : Passed C key r.lefts r.rights
  left : 0 < r.comp → r.left = .null
  right : r.comp < 0 → r.right = .null

lemma splayLoop_spec (key : K) (lefts rights : List (Link K V)) (left : Tree K V) (k : K) (v : V)
    (right : Tree K V) (hpassed : Passed C key lefts rights)
    (hsort : Sorted C (loopEntries lefts rights left k v right)) :
    Stopped C key (loopEntries lefts rights left k v right)
      (splayLoop C key lefts rights left k v right) := by
  fun_induction splayLoop C key lefts rights left k v right with
  | case1 lefts rights k v right hk =>
    exact ⟨rfl, rfl, hpassed, fun _ => rfl, fun h => (lt_asymm hk h).elim⟩
  | case2 lefts rights k v right hk lk lv lr hlk =>
    exact ⟨by simp [loopEntries, Tree.entries], rfl, hpassed, fun _ => rfl,
      fun h => (lt_asymm hlk h).elim⟩
  | case3 lefts rights k v right hk lk lv lr hlk lll llk llv llr ih =>
    have hsame : loopEntries lefts (⟨.node lr k v right, lk, lv⟩ :: rights) lll llk llv llr =
        loopEntries lefts rights (.node (.node lll llk llv llr) lk lv lr) k v right := by
      simp [loopEntries, Tree.entries, rightEntries]
    rw [← hsame] at hsort ⊢
    exact ih (hpassed.linkRight hlk (sorted_links hsort).2) hsort
  | case4 lefts rights k v right hk ll lk lv lr hlk ih =>
    have hsame : loopEntries lefts (⟨right, k, v⟩ :: rights) ll lk lv lr =
        loopEntries lefts rights (.node ll lk lv lr) k v right := by
      simp [loopEntries, Tree.entries, rightEntries]
    rw [← hsame] at hsort ⊢
    exact ih (hpassed.linkRight hk (sorted_links hsort).2) hsort
  | case5 lefts rights left k v hk hk' =>
    exact ⟨rfl, rfl, hpassed, fun h => (lt_asymm hk' h).elim, fun _ => rfl⟩
  | case6 lefts rights left k v hk hk' rl rk rv hrk =>
    exact ⟨by simp [loopEntries, Tree.entries], rfl, hpassed, fun h => (lt_asymm hrk h).elim,
      fun _ => rfl⟩
  | case7 lefts rights left k v hk hk' rl rk rv hrk rrl rrk rrv rrr ih =>
    have hsame : loopEntries (⟨.node left k v rl, rk, rv⟩ :: lefts) rights rrl rrk rrv rrr =
        loopEntries lefts rights left k v (.node rl rk rv (.node rrl rrk rrv rrr)) := by
      simp [loopEntries, Tree.entries, leftEntries]
    rw [← hsame] at hsort ⊢
    exact ih (hpassed.linkLeft hrk (sorted_links hsort).1) hsort
  | case8 lefts rights left k v hk hk' rl rk rv rr hrk ih =>
    have hsame : loopEntries (⟨left, k, v⟩ :: lefts) rights rl rk rv rr =
        loopEntries lefts rights left k v (.node rl rk rv rr) := by
      simp [loopEntries, Tree.entries, leftEntries]
    rw [← hsame] at hsort ⊢
    exact ih (hpassed.linkLeft hk' (sorted_links hsort).1) hsort
  | case9 lefts rights left k v right hk hk' =>
    exact ⟨rfl, rfl, hpassed, fun h => (hk h).elim, fun h => (hk' h).elim⟩

/-- The comparison belongs to the root, and nothing of the tree is between the root and the
key. -/
def Adjacent (C : Comparator K) (key : K) (comp : ℤ) : Tree K V → Prop
  | .null => comp < 0
  | .node left k _ right => comp = C.compare k key ∧
      (∀ p ∈ left.entries, C.compare p.1 key < 0) ∧ ∀ p ∈ right.entries, 0 < C.compare p.1 key

lemma Stopped.adjacent {l : List (K × V)} {r : Splayed K V} (h : Stopped C key l r)
    (hsort : Sorted C l) : (assemble r).entries = l ∧ Adjacent C key r.comp (assemble r) := by
  have hents : (assemble r).entries = l := by
    rw [← h.entries, assemble, Tree.entries, closeLeft_entries, closeRight_entries, loopEntries]
    simp
  refine ⟨hents, h.comp, fun p hp => ?_, fun p hp => ?_⟩
  · rw [← hents, assemble, Tree.entries] at hsort
    rcases lt_or_ge 0 r.comp with hpos | hle
    · rw [closeLeft_entries, h.left hpos, Tree.entries, append_nil] at hp
      exact h.passed.left p hp
    · exact hsort.below_of_le (by rw [← h.comp]; exact hle) p hp
  · rw [← hents, assemble, Tree.entries] at hsort
    rcases lt_or_ge r.comp 0 with hneg | hge
    · rw [closeRight_entries, h.right hneg, Tree.entries, nil_append] at hp
      exact h.passed.right p hp
    · exact hsort.above_of_ge (by rw [← h.comp]; exact hge) p hp

/-- Splaying changes the shape of the tree only, and says how the new root compares. -/
lemma splay_spec (s : State K V) (key : K) (hsort : Sorted C s.root.entries) :
    (splay C s key).2.root.entries = s.root.entries ∧
      Adjacent C key (splay C s key).1 (splay C s key).2.root ∧
      (splay C s key).2.count = s.count ∧
      (splay C s key).2.modificationCount = s.modificationCount ∧
      (splay C s key).2.splayCount = s.splayCount + if s.root.entries = [] then 0 else 1 := by
  rw [splay]
  cases hroot : s.root with
  | null => exact ⟨by rw [hroot], by rw [hroot]; exact neg_one_lt_zero, rfl, rfl, rfl⟩
  | node left k v right =>
    have hstart : loopEntries [] [] left k v right = (Tree.node left k v right).entries := by
      simp [loopEntries, leftEntries, rightEntries, Tree.entries]
    rw [hroot, ← hstart] at hsort
    have hstopped := splayLoop_spec key [] [] left k v right
      ⟨by simp [leftEntries], by simp [rightEntries]⟩ hsort
    obtain ⟨hents, hadj⟩ := hstopped.adjacent hsort
    refine ⟨by rw [← hstart]; exact hents, hadj, rfl, rfl, ?_⟩
    rw [if_neg (by simp [Tree.entries])]

section

variable (left : Tree K V) (k : K) (v : V)

lemma splayMin_entries (right : Tree K V) :
    (splayMin left k v right).entries = left.entries ++ (k, v) :: right.entries := by
  induction left generalizing k v right with
  | null => rfl
  | node ll lk lv lr ihl _ =>
    rw [splayMin, ihl, Tree.entries, Tree.entries]
    simp

lemma splayMax_entries (right : Tree K V) :
    (splayMax left k v right).entries = left.entries ++ (k, v) :: right.entries := by
  induction right generalizing left k v with
  | null => rfl
  | node rl rk rv rr _ ihr =>
    rw [splayMax, ihr, Tree.entries, Tree.entries]
    simp

lemma splayMin_left (right : Tree K V) :
    ∃ k' v' right', splayMin left k v right = .node .null k' v' right' := by
  induction left generalizing k v right with
  | null => exact ⟨k, v, right, rfl⟩
  | node ll lk lv lr ihl _ => exact ihl lk lv _

lemma splayMax_right (right : Tree K V) :
    ∃ left' k' v', splayMax left k v right = .node left' k' v' .null := by
  induction right generalizing left k v with
  | null => exact ⟨left, k, v, rfl⟩
  | node rl rk rv rr _ ihr => exact ihr _ rk rv

end

lemma rightmost_eq (k : K) (right : Tree K V) (l : List (K × V)) (v : V) :
    (l ++ (k, v) :: right.entries).getLast?.map Prod.fst = some (rightmost k right) := by
  induction right generalizing k l v with
  | null => simp [Tree.entries, rightmost]
  | node rl rk rv rr _ ihr =>
    rw [rightmost, ← ihr rk (l ++ (k, v) :: rl.entries) rv, Tree.entries]
    simp

lemma leftmost_eq (k : K) (left : Tree K V) (l : List (K × V)) (v : V) :
    (left.entries ++ (k, v) :: l).head?.map Prod.fst = some (leftmost k left) := by
  induction left generalizing k l v with
  | null => rfl
  | node ll lk lv lr ihl _ =>
    rw [leftmost, ← ihl lk (lr.entries ++ (k, v) :: l) lv, Tree.entries]
    simp

lemma lastOf_eq (t : Tree K V) : lastOf t = t.entries.getLast?.map Prod.fst := by
  cases t with
  | null => rfl
  | node left k v right => rw [lastOf, Tree.entries, rightmost_eq]

lemma firstOf_eq (t : Tree K V) : firstOf t = t.entries.head?.map Prod.fst := by
  cases t with
  | null => rfl
  | node left k v right => rw [firstOf, Tree.entries, leftmost_eq]

lemma join_entries (left right : Tree K V) :
    (join left right).entries = left.entries ++ right.entries := by
  cases left with
  | null => rfl
  | node ll lk lv lr =>
    obtain ⟨l, k, v, hmax⟩ := splayMax_right ll lk lv lr
    have hents := splayMax_entries ll lk lv lr
    rw [join, hmax]
    rw [hmax, Tree.entries, Tree.entries] at hents
    rw [Tree.entries, Tree.entries, ← hents]
    simp

end

open Reentrant SortedMap Operation

/-- What operations do to a pending `putIfAbsent`: whether they change the keys, bring an end to the
root, or splay. -/
@[ext] structure Effects where
  modified : Bool
  rerooted : Bool
  splayed : Bool

instance : Monoid Effects where
  one := ⟨false, false, false⟩
  mul a b := ⟨a.modified || b.modified, a.rerooted || b.rerooted, a.splayed || b.splayed⟩
  mul_assoc a b c := Effects.ext (Bool.or_assoc ..) (Bool.or_assoc ..) (Bool.or_assoc ..)
  one_mul a := Effects.ext (Bool.false_or _) (Bool.false_or _) (Bool.false_or _)
  mul_one a := Effects.ext (Bool.or_false _) (Bool.or_false _) (Bool.or_false _)

def splayEffect (m : SortedMap C V) : Effects := ⟨false, false, !m.entries.isEmpty⟩

def rerootEffect (m : SortedMap C V) : Effects := ⟨false, !m.entries.isEmpty, false⟩

def Operation.effect (o : Operation K V) (m : SortedMap C V) : Effects :=
  match o with
  | .lookup none => 1
  | .lookup (some _) => splayEffect m
  | .containsKey none => 1
  | .containsKey (some _) => splayEffect m
  | .assign key _ => ⟨(m.get key).isNone, false, !m.entries.isEmpty⟩
  | .remove none => 1
  | .remove (some key) => ⟨(m.get key).isSome, false, !m.entries.isEmpty⟩
  | .clear => ⟨true, false, false⟩
  | .firstKey => rerootEffect m
  | .lastKey => rerootEffect m
  | .lastKeyBefore _ => splayEffect m
  | .firstKeyAfter _ => splayEffect m
  | .length => 1

/-- The operation on the sorted map. -/
def Operation.spec (o : Operation K V) (m : SortedMap C V) : Answer K V × SortedMap C V :=
  match o with
  | .lookup key => (.value (key.bind m.get), m)
  | .containsKey key => (.flag (key.bind m.get).isSome, m)
  | .assign key value => (.void, m.set key value)
  | .remove none => (.value none, m)
  | .remove (some key) => (.value (m.get key), m.erase key)
  | .clear => (.void, .empty C V)
  | .firstKey => (.key m.firstKey, m)
  | .lastKey => (.key m.lastKey, m)
  | .lastKeyBefore key => (.key (m.lastKeyBefore key), m)
  | .firstKeyAfter key => (.key (m.firstKeyAfter key), m)
  | .length => (.count m.entries.length, m)

def specification (C : Comparator K) (V : Type) :
    Specification (SortedMap C V) K V (Operation K V) (Answer K V) Effects where
  perform := Operation.spec
  get := SortedMap.get
  set := SortedMap.set
  effect := Operation.effect
  startEffect m _ := splayEffect m
  setEffect _ _ _ := ⟨true, false, false⟩

structure Represents (s : State K V) (m : SortedMap C V) : Prop where
  entries : s.root.entries = m.entries
  count : s.count = m.entries.length

/-- How operations with these effects may change the state. -/
structure Moves (s s' : State K V) (m m' : SortedMap C V) (e : Effects) : Prop where
  modified : e.modified = false → s'.modificationCount = s.modificationCount ∧
    ∀ key, m.get key = none → m'.get key = none
  splayed : s.splayCount ≤ s'.splayCount ∧ (e.splayed = true → s.splayCount < s'.splayCount)
  same : e.modified = false → e.rerooted = false → s'.splayCount = s.splayCount → s'.root = s.root

lemma Moves.refl (s : State K V) (m : SortedMap C V) : Moves s s m m 1 :=
  ⟨fun _ => ⟨rfl, fun _ h => h⟩, ⟨le_rfl, fun h => absurd h (by decide)⟩, fun _ _ _ => rfl⟩

lemma Moves.trans {s s' s'' : State K V} {m m' m'' : SortedMap C V} {e e' : Effects}
    (h : Moves s s' m m' e) (h' : Moves s' s'' m' m'' e') : Moves s s'' m m'' (e * e') := by
  have hle := h.splayed.1
  have hle' := h'.splayed.1
  refine ⟨fun hmod => ?_, ⟨hle.trans hle', fun hsplayed => ?_⟩, fun hmod hrerooted hcnt => ?_⟩
  · obtain ⟨h1, h2⟩ := Bool.or_eq_false_iff.mp hmod
    obtain ⟨hcnt, hkeys⟩ := h.modified h1
    obtain ⟨hcount', hkeys'⟩ := h'.modified h2
    exact ⟨hcount'.trans hcnt, fun key hkey => hkeys' key (hkeys key hkey)⟩
  · rcases (Bool.or_eq_true_iff.mp hsplayed) with h1 | h2
    · have := h.splayed.2 h1
      omega
    · have := h'.splayed.2 h2
      omega
  · obtain ⟨h1, h2⟩ := Bool.or_eq_false_iff.mp hmod
    obtain ⟨h3, h4⟩ := Bool.or_eq_false_iff.mp hrerooted
    rw [h'.same h2 h4 (by omega), h.same h1 h3 (by omega)]

section

variable {s : State K V} {m : SortedMap C V}

lemma Represents.sorted (h : Represents s m) : Sorted C s.root.entries := by
  rw [h.entries]
  exact m.sorted

lemma Represents.splay_spec (h : Represents s m) (key : K) :
    Represents (splay C s key).2 m ∧ Adjacent C key (splay C s key).1 (splay C s key).2.root ∧
      Moves s (splay C s key).2 m m (splayEffect m) ∧
      (splay C s key).2.modificationCount = s.modificationCount := by
  obtain ⟨hents, hadj, hcnt, hmod, hsplayed⟩ := SplayTree.splay_spec s key h.sorted
  rw [h.entries] at hsplayed
  refine ⟨⟨hents.trans h.entries, hcnt.trans h.count⟩, hadj,
    ⟨fun _ => ⟨hmod, fun _ hkey => hkey⟩, ?_, ?_⟩, hmod⟩
  · constructor
    · omega
    · intro hnonempty
      rw [splayEffect, Bool.not_eq_true', isEmpty_eq_false_iff] at hnonempty
      rw [if_neg hnonempty] at hsplayed
      omega
  · -- the tree is the same only when there is nothing to splay
    intro _ _ hsame
    by_cases hemp : m.entries = []
    · rw [splay]
      cases hroot : s.root with
      | null => exact hroot
      | node left k v right =>
        have := h.entries
        rw [hroot, hemp, Tree.entries] at this
        simp at this
    · rw [if_neg hemp] at hsplayed
      omega

/-- The parts of the map around a key, as the tree has them after splaying. -/
structure Parts (m : SortedMap C V) (key : K) (comp : ℤ) (left : Tree K V) (k : K) (v : V)
    (right : Tree K V) : Prop where
  below : below C m.entries key = if comp < 0 then left.entries ++ [(k, v)] else left.entries
  equal : equal C m.entries key = if comp = 0 then some (k, v) else none
  above : above C m.entries key = if 0 < comp then (k, v) :: right.entries else right.entries

variable {key : K} {comp : ℤ}

section

variable (h : Represents s m)

include h

lemma Represents.parts {left right : Tree K V} {k : K} {v : V}
    (hroot : s.root = .node left k v right) (hadj : Adjacent C key comp s.root) :
    Parts m key comp left k v right := by
  have hents := h.entries
  rw [hroot] at hadj hents
  obtain ⟨hcomp, hleft, hright⟩ := hadj
  rw [Tree.entries] at hents
  rcases lt_trichotomy comp 0 with hneg | hzero | hpos
  · have hsplit := @split_absent _ _ _ (left.entries ++ [(k, v)]) right.entries key
      (fun p hp => by
        rcases mem_append.mp hp with hp | hp
        · exact hleft p hp
        · rw [mem_singleton.mp hp, ← hcomp]
          exact hneg) hright
    rw [append_assoc, singleton_append, hents] at hsplit
    obtain ⟨hbelow, hequal, habove⟩ := hsplit
    exact ⟨by rw [if_pos hneg, hbelow], by rw [if_neg hneg.ne, hequal],
      by rw [if_neg hneg.not_gt, habove]⟩
  · obtain ⟨hbelow, hequal, habove⟩ := split_present (v := v) hleft (hcomp.symm.trans hzero) hright
    rw [hents] at hbelow hequal habove
    exact ⟨by rw [if_neg hzero.not_lt, hbelow], by rw [if_pos hzero, hequal],
      by rw [if_neg hzero.not_gt, habove]⟩
  · have hsplit := @split_absent _ _ _ left.entries ((k, v) :: right.entries) key
      hleft (fun p hp => by
        rcases mem_cons.mp hp with rfl | hp
        · rw [← hcomp]
          exact hpos
        · exact hright p hp)
    rw [hents] at hsplit
    obtain ⟨hbelow, hequal, habove⟩ := hsplit
    exact ⟨by rw [if_neg hpos.not_gt, hbelow], by rw [if_neg hpos.ne', hequal],
      by rw [if_pos hpos, habove]⟩

lemma Represents.null (hroot : s.root = .null) : m.entries = [] := by
  rw [← h.entries, hroot, Tree.entries]

omit h in
lemma get_of_nil (hnil : m.entries = []) (key : K) : m.get key = none := by
  rw [SortedMap.get, hnil]
  rfl

omit h in
lemma Parts.get {k : K} {left right : Tree K V} {v : V}
    (h : Parts m key comp left k v right) : m.get key = if comp = 0 then some v else none := by
  rw [SortedMap.get, h.equal]
  split <;> rfl

lemma Represents.splay_cases (key : K) :
    (s.root = .null ∧ m.entries = [] ∧ splay C s key = (-1, s)) ∨
      ∃ left k v right, s.root ≠ .null ∧ (splay C s key).2.root = .node left k v right ∧
        Parts m key (splay C s key).1 left k v right := by
  cases hroot : s.root with
  | null => exact .inl ⟨rfl, h.null hroot, by rw [splay, hroot]⟩
  | node left0 k0 v0 right0 =>
    obtain ⟨h1, hadj, -⟩ := h.splay_spec key
    have hnonempty : (splay C s key).2.root ≠ .null := by
      intro hnull
      have hents := h1.null hnull
      rw [← h.entries, hroot, Tree.entries] at hents
      simp at hents
    cases hroot' : (splay C s key).2.root with
    | null => exact absurd hroot' hnonempty
    | node left k v right =>
      exact .inr ⟨left, k, v, right, by simp, rfl, h1.parts hroot' hadj⟩

omit h in
lemma splayEffect_of_nil (hnil : m.entries = []) : splayEffect m = 1 := by
  rw [splayEffect, hnil]
  rfl

lemma Represents.reads (key : K) {α : Type} {f : State K V → Except Error (α × State K V)}
    {answer : α} (hnull : s.root = .null → m.entries = [] → f s = .ok (answer, s))
    (hnode : ∀ left k v right, s.root ≠ .null → (splay C s key).2.root = .node left k v right →
      Parts m key (splay C s key).1 left k v right → f s = .ok (answer, (splay C s key).2)) :
    ∃ s', f s = .ok (answer, s') ∧ Represents s' m ∧ Moves s s' m m (splayEffect m) := by
  obtain ⟨h1, -, hmoves, -⟩ := h.splay_spec key
  rcases h.splay_cases key with ⟨hroot, hnil, -⟩ | ⟨left, k, v, right, hroot, hroot', hparts⟩
  · refine ⟨s, hnull hroot hnil, h, ?_⟩
    rw [splayEffect_of_nil hnil]
    exact .refl s m
  · exact ⟨_, hnode left k v right hroot hroot' hparts, h1, hmoves⟩

lemma Represents.lookup_spec (key : K) :
    ∃ s', lookup C s (some key) = .ok (m.get key, s') ∧ Represents s' m ∧
      Moves s s' m m (splayEffect m) := by
  refine h.reads key (f := fun s => lookup C s (some key)) (fun hroot hnil => ?_)
    fun left k v right hroot hroot' hparts => ?_
  · rw [lookup, hroot, get_of_nil hnil]
  · rw [lookup, hparts.get]
    cases hr : s.root with
    | null => exact absurd hr hroot
    | node =>
      dsimp only
      rw [hroot']
      split <;> rfl

lemma Represents.containsKey_spec (key : K) :
    ∃ s', containsKey C s (some key) = ((m.get key).isSome, s') ∧ Represents s' m ∧
      Moves s s' m m (splayEffect m) := by
  obtain ⟨h1, -, hmoves, -⟩ := h.splay_spec key
  refine ⟨(splay C s key).2, ?_, h1, hmoves⟩
  rw [containsKey]
  dsimp only
  rcases h.splay_cases key with ⟨-, hnil, hsplay⟩ | ⟨left, k, v, right, -, -, hparts⟩
  · rw [hsplay, get_of_nil hnil]
    rfl
  · rw [hparts.get]
    split
    · rename_i hzero
      rw [decide_eq_true hzero]
      rfl
    · rename_i hne
      rw [decide_eq_false hne]
      rfl

lemma Represents.lastKeyBefore_spec (key : K) :
    ∃ s', lastKeyBefore C s key = .ok (m.lastKeyBefore key, s') ∧ Represents s' m ∧
      Moves s s' m m (splayEffect m) := by
  refine h.reads key (f := fun s => lastKeyBefore C s key) (fun hroot hnil => ?_)
    fun left k v right hroot hroot' hparts => ?_
  · rw [lastKeyBefore, hroot, SortedMap.lastKeyBefore, hnil]
    rfl
  · rw [lastKeyBefore, SortedMap.lastKeyBefore, hparts.below]
    cases hr : s.root with
    | null => exact absurd hr hroot
    | node =>
      dsimp only
      rw [hroot']
      dsimp only
      split
      · simp
      · rw [lastOf_eq]

lemma Represents.firstKeyAfter_spec (key : K) :
    ∃ s', firstKeyAfter C s key = .ok (m.firstKeyAfter key, s') ∧ Represents s' m ∧
      Moves s s' m m (splayEffect m) := by
  refine h.reads key (f := fun s => firstKeyAfter C s key) (fun hroot hnil => ?_)
    fun left k v right hroot hroot' hparts => ?_
  · rw [firstKeyAfter, hroot, SortedMap.firstKeyAfter, hnil]
    rfl
  · rw [firstKeyAfter, SortedMap.firstKeyAfter, hparts.above]
    cases hr : s.root with
    | null => exact absurd hr hroot
    | node =>
      dsimp only
      rw [hroot']
      dsimp only
      by_cases hpos : 0 < (splay C s key).1
      · rw [if_pos hpos, if_pos hpos]
        rfl
      · rw [if_neg hpos, if_neg hpos, firstOf_eq]

lemma Represents.reroot {t : Tree K V} (ht : t.entries = s.root.entries)
    (hnonempty : m.entries ≠ []) :
    Represents { s with root := t } m ∧ Moves s { s with root := t } m m (rerootEffect m) := by
  refine ⟨⟨ht.trans h.entries, h.count⟩, fun _ => ⟨rfl, fun _ hkey => hkey⟩,
    ⟨le_rfl, fun hsplayed => absurd hsplayed (by simp [rerootEffect])⟩, fun _ hrerooted => ?_⟩
  rw [rerootEffect, Bool.not_eq_false', List.isEmpty_iff] at hrerooted
  exact absurd hrerooted hnonempty

omit h in
lemma rerootEffect_of_nil (hnil : m.entries = []) : rerootEffect m = 1 := by
  rw [rerootEffect, hnil]
  rfl

lemma Represents.firstKey_spec :
    ∃ s', firstKey s = .ok (m.firstKey, s') ∧ Represents s' m ∧
      Moves s s' m m (rerootEffect m) := by
  rw [firstKey, SortedMap.firstKey]
  cases hroot : s.root with
  | null =>
    have hnil := h.null hroot
    rw [hnil, rerootEffect_of_nil hnil]
    exact ⟨s, rfl, h, .refl s m⟩
  | node left k v right =>
    obtain ⟨k', v', right', hmin⟩ := splayMin_left left k v right
    have hents := splayMin_entries left k v right
    dsimp only
    rw [hmin] at hents ⊢
    have hsame : (Tree.node .null k' v' right').entries = s.root.entries := by
      rw [hents, hroot, Tree.entries]
    obtain ⟨h1, hmoves⟩ := h.reroot hsame (by rw [← h.entries, ← hsame]; simp [Tree.entries])
    refine ⟨_, ?_, h1, hmoves⟩
    rw [← h.entries, ← hsame]
    rfl

lemma Represents.lastKey_spec :
    ∃ s', lastKey s = .ok (m.lastKey, s') ∧ Represents s' m ∧ Moves s s' m m (rerootEffect m) := by
  rw [lastKey, SortedMap.lastKey]
  cases hroot : s.root with
  | null =>
    have hnil := h.null hroot
    rw [hnil, rerootEffect_of_nil hnil]
    exact ⟨s, rfl, h, .refl s m⟩
  | node left k v right =>
    obtain ⟨left', k', v', hmax⟩ := splayMax_right left k v right
    have hents := splayMax_entries left k v right
    dsimp only
    rw [hmax] at hents ⊢
    have hsame : (Tree.node left' k' v' .null).entries = s.root.entries := by
      rw [hents, hroot, Tree.entries]
    obtain ⟨h1, hmoves⟩ := h.reroot hsame (by rw [← h.entries, ← hsame]; simp [Tree.entries])
    refine ⟨_, ?_, h1, hmoves⟩
    rw [← h.entries, ← hsame]
    simp [Tree.entries]

lemma Represents.addNewRoot_spec (hne : comp ≠ 0) (hadj : Adjacent C key comp s.root)
    (value : V) : Represents (addNewRoot s key value comp) (m.set key value) := by
  cases hroot : s.root with
  | null =>
    have hnil := h.null hroot
    have hset : (m.set key value).entries = [(key, value)] := by
      rw [entries_set, hnil]
      rfl
    refine ⟨?_, ?_⟩
    · rw [addNewRoot, hroot, hset]
      rfl
    · rw [hset, addNewRoot, h.count, hnil]
      rfl
  | node left k v right =>
    have hparts := h.parts hroot hadj
    have hset : (m.set key value).entries =
        below C m.entries key ++ (key, value) :: above C m.entries key := by
      rw [entries_set, hparts.equal, if_neg hne]
      rfl
    have hents := h.entries
    rw [hroot, Tree.entries] at hents
    refine ⟨?_, ?_⟩
    · rw [addNewRoot, hroot, hset, hparts.below, hparts.above]
      dsimp only
      rcases lt_or_gt_of_ne hne with hneg | hpos
      · rw [if_pos hneg, if_pos hneg, if_neg hneg.not_gt]
        rfl
      · rw [if_neg hpos.not_gt, if_neg hpos.not_gt, if_pos hpos]
        rfl
    · rw [hset, hparts.below, hparts.above, addNewRoot, h.count, ← hents]
      rcases lt_or_gt_of_ne hne with hneg | hpos
      · rw [if_pos hneg, if_neg hneg.not_gt]
        simp only [length_append, length_cons, length_nil]
        omega
      · rw [if_neg hpos.not_gt, if_pos hpos]
        simp only [length_append, length_cons]
        omega

end

variable {e : Effects}

lemma Moves.ofModified {s s' : State K V} {m m' : SortedMap C V}
    (hmod : e.modified = true) (hle : s.splayCount ≤ s'.splayCount)
    (hsplayed : e.splayed = true → s.splayCount < s'.splayCount) : Moves s s' m m' e :=
  ⟨fun h => absurd (hmod.symm.trans h) (by decide), ⟨hle, hsplayed⟩,
    fun h => absurd (hmod.symm.trans h) (by decide)⟩

section

variable (h : Represents s m)

include h

lemma Represents.assign_spec (key : K) (value : V) :
    ∃ s', assign C s key value = .ok s' ∧ Represents s' (m.set key value) ∧
      Moves s s' m (m.set key value) ⟨(m.get key).isNone, false, !m.entries.isEmpty⟩ := by
  obtain ⟨h1, hadj, hmoves, -⟩ := h.splay_spec key
  rw [assign]
  dsimp only
  by_cases hzero : (splay C s key).1 = 0
  · rcases h.splay_cases key with ⟨-, -, hsplay⟩ | ⟨left, k, v, right, -, hroot, hparts⟩
    · rw [hsplay] at hzero
      cases hzero
    · rw [if_pos hzero, hroot]
      have hget := hparts.get
      have hset : (m.set key value).entries = left.entries ++ (k, value) :: right.entries := by
        rw [entries_set, hparts.equal, hparts.below, hparts.above, if_pos hzero, hzero]
        rfl
      have hents := h1.entries
      rw [hroot, Tree.entries] at hents
      refine ⟨_, rfl, ⟨hset.symm, ?_⟩, ?_⟩
      · rw [hset]
        have hcnt := h1.count
        rw [← hents] at hcnt
        simpa using hcnt
      · rw [hget]
        refine ⟨fun _ => ⟨(hmoves.modified rfl).1, fun k' hk' => ?_⟩, hmoves.splayed,
          fun _ _ hsame => ?_⟩
        · rw [get_eq_none_iff] at hk' ⊢
          rw [hset]
          rw [← hents] at hk'
          simpa using hk'
        · have hlt := hmoves.splayed.2 (by
            rw [splayEffect, ← hents]
            simp)
          exact absurd hsame hlt.ne'
  · rw [if_neg hzero]
    have hget : m.get key = none := by
      rcases h.splay_cases key with ⟨-, hnil, -⟩ | ⟨left, k, v, right, -, -, hparts⟩
      · exact get_of_nil hnil key
      · rw [hparts.get, if_neg hzero]
    exact ⟨_, rfl, h1.addNewRoot_spec hzero hadj value,
      .ofModified (by rw [hget]; rfl) hmoves.splayed.1 hmoves.splayed.2⟩

lemma Represents.remove_spec (key : K) :
    ∃ s', remove C s (some key) = .ok (m.get key, s') ∧ Represents s' (m.erase key) ∧
      Moves s s' m (m.erase key) ⟨(m.get key).isSome, false, !m.entries.isEmpty⟩ := by
  obtain ⟨h1, -, hmoves, -⟩ := h.splay_spec key
  rw [remove]
  rcases h.splay_cases key with ⟨hroot, hnil, -⟩ | ⟨left, k, v, right, hroot, hroot', hparts⟩
  · have herase : m.erase key = m := by
      apply SortedMap.ext
      rw [SortedMap.entries_erase, hnil]
      rfl
    rw [hroot, get_of_nil hnil, herase, hnil]
    exact ⟨s, rfl, h, .refl s m⟩
  · have hents := h1.entries
    rw [hroot', Tree.entries] at hents
    cases hr : s.root with
    | null => exact absurd hr hroot
    | node =>
    rw [hparts.get]
    dsimp only
    by_cases hzero : (splay C s key).1 = 0
    · rw [if_neg (not_not.mpr hzero), hroot', if_pos hzero]
      have herase : (m.erase key).entries = left.entries ++ right.entries := by
        rw [SortedMap.entries_erase, hparts.below, hparts.above, hzero]
        rfl
      refine ⟨_, rfl, ⟨?_, ?_⟩, .ofModified rfl hmoves.splayed.1 hmoves.splayed.2⟩
      · rw [herase]
        exact join_entries left right
      · rw [herase]
        rw [h1.count, ← hents]
        simp
    · rw [if_pos hzero, if_neg hzero]
      have herase : m.erase key = m := by
        apply SortedMap.ext
        rw [SortedMap.entries_erase, hparts.below, hparts.above, ← hents]
        rcases lt_or_gt_of_ne hzero with hneg | hpos
        · rw [if_pos hneg, if_neg hneg.not_gt]
          simp
        · rw [if_neg hpos.not_gt, if_pos hpos]
      rw [herase]
      exact ⟨_, rfl, h1, hmoves⟩

lemma Represents.run_spec (o : Operation K V) :
    ∃ s', o.run C s = .ok ((o.spec m).1, s') ∧ Represents s' (o.spec m).2 ∧
      Moves s s' m (o.spec m).2 (o.effect m) := by
  cases o with
  | lookup key =>
    cases key with
    | none => exact ⟨s, rfl, h, .refl s m⟩
    | some key =>
      obtain ⟨s', hs', h', hmoves⟩ := h.lookup_spec key
      exact ⟨s', by rw [run, hs']; rfl, h', hmoves⟩
  | containsKey key =>
    cases key with
    | none => exact ⟨s, rfl, h, .refl s m⟩
    | some key =>
      obtain ⟨s', hs', h', hmoves⟩ := h.containsKey_spec key
      exact ⟨s', by rw [run, hs']; rfl, h', hmoves⟩
  | assign key value =>
    obtain ⟨s', hs', h', hmoves⟩ := h.assign_spec key value
    exact ⟨s', by rw [run, hs']; rfl, h', hmoves⟩
  | remove key =>
    cases key with
    | none => exact ⟨s, rfl, h, .refl s m⟩
    | some key =>
      obtain ⟨s', hs', h', hmoves⟩ := h.remove_spec key
      exact ⟨s', by rw [run, hs']; rfl, h', hmoves⟩
  | clear => exact ⟨clear s, rfl, ⟨rfl, rfl⟩, .ofModified rfl le_rfl nofun⟩
  | firstKey =>
    obtain ⟨s', hs', h', hmoves⟩ := h.firstKey_spec
    exact ⟨s', by rw [run, hs']; rfl, h', hmoves⟩
  | lastKey =>
    obtain ⟨s', hs', h', hmoves⟩ := h.lastKey_spec
    exact ⟨s', by rw [run, hs']; rfl, h', hmoves⟩
  | lastKeyBefore key =>
    obtain ⟨s', hs', h', hmoves⟩ := h.lastKeyBefore_spec key
    exact ⟨s', by rw [run, hs']; rfl, h', hmoves⟩
  | firstKeyAfter key =>
    obtain ⟨s', hs', h', hmoves⟩ := h.firstKeyAfter_spec key
    exact ⟨s', by rw [run, hs']; rfl, h', hmoves⟩
  | length =>
    refine ⟨s, ?_, h, .refl s m⟩
    rw [run, h.count]
    rfl

/-- The context is of an earlier state, where the comparison belonged to the root. -/
def Track (key : K) (c : Context K) (e : Effects) (s : State K V) (m : SortedMap C V) : Prop :=
  ∃ s₀ m₀, c.key = key ∧ c.modificationCount = s₀.modificationCount ∧
    c.splayCount = s₀.splayCount ∧ c.comp ≠ 0 ∧ Adjacent C key c.comp s₀.root ∧
    SortedMap.get m₀ key = none ∧ Moves s₀ s m₀ m e

omit h in
lemma Track.moves {c : Context K} {e' : Effects} {s' : State K V}
    {m' : SortedMap C V} (h : Track key c e s m) (hmoves : Moves s s' m m' e') :
    Track key c (e * e') s' m' := by
  obtain ⟨s0, m0, hkey, hmod, hsplayed, hne, hadj, habs, hmoves0⟩ := h
  exact ⟨s0, m0, hkey, hmod, hsplayed, hne, hadj, habs, hmoves0.trans hmoves⟩

/-- A callback does not change the keys, and it splays when it calls `firstKey` or `lastKey`. -/
def Harmless (e : Effects) : Prop :=
  e.modified = false ∧ (e.rerooted = true → e.splayed = true)

lemma Represents.start_spec (key : K) :
    ∃ found s', putIfAbsentStart C key s = .ok (found, s') ∧ Represents s' m ∧
      Moves s s' m m (splayEffect m) ∧
      match m.get key with
      | some value => found = .inl value
      | none => ∃ c, found = .inr c ∧ Track key c 1 s' m := by
  obtain ⟨h1, hadj, hmoves, hmod⟩ := h.splay_spec key
  rw [putIfAbsentStart]
  dsimp only
  rcases h.splay_cases key with ⟨hroot, hnil, hsplay⟩ | ⟨left, k, v, right, -, hroot, hparts⟩
  · have hget := get_of_nil hnil key
    have hne : (-1 : ℤ) ≠ 0 := by decide
    rw [hsplay, if_neg hne, hget, splayEffect_of_nil hnil]
    refine ⟨_, s, rfl, h, .refl s m, _, rfl, s, m, rfl, rfl, rfl, hne, ?_, hget, .refl s m⟩
    rw [hroot]
    exact neg_one_lt_zero
  · have hget := hparts.get
    by_cases hzero : (splay C s key).1 = 0
    · rw [if_pos hzero] at hget ⊢
      rw [hroot, hget]
      exact ⟨_, _, rfl, h1, hmoves, rfl⟩
    · rw [if_neg hzero] at hget ⊢
      rw [hget]
      exact ⟨_, _, rfl, h1, hmoves, _, rfl, _, m, rfl, rfl, rfl, hzero, hadj, hget, .refl _ m⟩

lemma Represents.finish_spec {c : Context K} (htrack : Track key c e s m) (hgood : Harmless e)
    (value : V) :
    ∃ s', putIfAbsentFinish C c value s = .ok s' ∧ Represents s' (m.set key value) ∧
      Moves s s' m (m.set key value) ⟨true, false, false⟩ := by
  obtain ⟨s0, m0, rfl, hmod, hsplayed, hne, hadj, habs, hmoves⟩ := htrack
  obtain ⟨hunmodified, hrerooted⟩ := hgood
  obtain ⟨hcnt, hkeys⟩ := hmoves.modified hunmodified
  rw [putIfAbsentFinish, if_neg (by rw [hmod, hcnt]; simp)]
  split_ifs with hsame
  · obtain ⟨h1, hadjacent1, hmoves1, -⟩ := h.splay_spec c.key
    have hne1 : (splay C s c.key).1 ≠ 0 := by
      intro hzero
      rcases h.splay_cases c.key with ⟨-, -, hsplay⟩ | ⟨left, k, v, right, -, -, hparts⟩
      · rw [hsplay] at hzero
        cases hzero
      · have hget := hparts.get
        rw [if_pos hzero, hkeys c.key habs] at hget
        cases hget
    dsimp only
    rw [if_pos hne1]
    exact ⟨_, rfl, h1.addNewRoot_spec hne1 hadjacent1 value,
      .ofModified rfl hmoves1.splayed.1 (fun h => absurd h (by decide))⟩
  · rw [not_not, hsplayed] at hsame
    have hnotRerooted : e.rerooted = false := by
      rw [← Bool.not_eq_true]
      intro hr
      have := hmoves.splayed.2 (hrerooted hr)
      omega
    have hroot := hmoves.same hunmodified hnotRerooted hsame.symm
    rw [← hroot] at hadj
    exact ⟨_, rfl, h.addNewRoot_spec hne hadj value,
      .ofModified rfl le_rfl (fun h => absurd h (by decide))⟩

end

lemma simulation (C : Comparator K) (V : Type) :
    Simulation (implementation C) (specification C V)
      (fun _ => True) Harmless Represents Track where
  perform o h _ := by
    obtain ⟨s', hrun, h', hmoves⟩ := h.run_spec o
    exact ⟨s', hrun, h', fun _ _ _ htrack => htrack.moves hmoves⟩
  found {s m} key value h hget := by
    obtain ⟨found, s', hrun, h', hmoves, hfound⟩ := h.start_spec key
    rw [show m.get key = some value from hget] at hfound
    subst hfound
    exact ⟨s', hrun, h', fun _ _ _ htrack => htrack.moves hmoves⟩
  absent {s m} key h hget := by
    obtain ⟨found, s', hrun, h', hmoves, hfound⟩ := h.start_spec key
    rw [show m.get key = none from hget] at hfound
    obtain ⟨c, rfl, htrack⟩ := hfound
    exact ⟨c, s', hrun, h', htrack, fun _ _ _ htrack => htrack.moves hmoves⟩
  finish key c e value h htrack hgood _ := by
    obtain ⟨s', hrun, h', hmoves⟩ := h.finish_spec htrack hgood value
    exact ⟨s', hrun, h', fun _ _ _ htrack => htrack.moves hmoves⟩

lemma initial_represents : Represents (initial : State K V) (.empty C V) := ⟨rfl, rfl⟩

end

/-- The order of a binary search tree. -/
def Tree.Ordered (C : Comparator K) : Tree K V → Prop
  | .null => True
  | .node left k _ right => left.Ordered C ∧ right.Ordered C ∧
      (∀ p ∈ left.entries, C.compare p.1 k < 0) ∧ ∀ p ∈ right.entries, C.compare k p.1 < 0

/-- The number of nodes. -/
def Tree.size : Tree K V → ℕ
  | .null => 0
  | .node left _ _ right => left.size + right.size + 1

lemma Tree.ordered_of_sorted {t : Tree K V} (h : Sorted C t.entries) : t.Ordered C := by
  induction t with
  | null => trivial
  | node left k v right ihl ihr =>
    obtain ⟨hleft, hrest, hacross⟩ := pairwise_append.mp h
    obtain ⟨hroot, hright⟩ := pairwise_cons.mp hrest
    exact ⟨ihl hleft, ihr hright, fun p hp => hacross p hp (k, v) mem_cons_self,
      fun p hp => hroot p hp⟩

lemma Tree.length_entries (t : Tree K V) : t.entries.length = t.size := by
  induction t with
  | null => rfl
  | node left k v right ihl ihr =>
    rw [Tree.entries, Tree.size, length_append, length_cons, ihl, ihr]
    omega

/-- A search tree that counts its nodes and answers as the sorted map. -/
structure Faithful (C : Comparator K) (s : State K V) (m : SortedMap C V) : Prop where
  ordered : s.root.Ordered C
  count : s.count = s.root.size
  entries : s.root.entries = m.entries
  answers : ∀ o : Operation K V, (o.run C s).map Prod.fst = .ok (o.spec m).1

lemma Represents.faithful {s : State K V} {m : SortedMap C V} (h : Represents s m) :
    Faithful C s m := by
  refine ⟨Tree.ordered_of_sorted (by rw [h.entries]; exact m.sorted), ?_, h.entries, fun o => ?_⟩
  · rw [h.count, ← h.entries, Tree.length_entries]
  · obtain ⟨s', hrun, -⟩ := h.run_spec o
    rw [hrun]
    rfl

/-- Every program whose callbacks are harmless gets the answers of the sorted map, also inside them.
-/
theorem run_refines_sorted_map (C : Comparator K) (script : Script K V (Operation K V) (Answer K V))
    (hsafe : script.Safe (specification C V) (fun _ => True) Harmless (.empty C V)) :
    ∃ s, script.run (implementation C) initial =
        .ok ((script.eval (specification C V) (.empty C V)).value, s) ∧
      Faithful C s (script.eval (specification C V) (.empty C V)).map := by
  obtain ⟨s, hrun, h, -⟩ := (simulation C V).run_spec script initial_represents hsafe
  exact ⟨s, hrun, h.faithful⟩

def natComparator : Comparator ℕ where
  compare a b := (a : ℤ) - b
  swap a b := by omega
  trans a b c := by omega

/-- A callback that asks for the first key and then looks up another one. -/
def lookupScript : Script ℕ ℕ (Operation ℕ ℕ) (Answer ℕ ℕ) :=
  .perform (.assign 1 10) fun _ => .perform (.assign 2 20) fun _ =>
    .putIfAbsent 3 (.perform .firstKey fun _ => .perform (.lookup (some 2)) fun _ => .ret 30)
      fun value => .ret value

theorem run_refines_sorted_map_lookup :
    ∃ s, lookupScript.run (implementation natComparator) initial = .ok (30, s) ∧
      Faithful natComparator s ⟨[(1, 10), (2, 20), (3, 30)], by unfold Sorted; decide⟩ :=
  run_refines_sorted_map natComparator lookupScript
    ⟨trivial, trivial, ⟨trivial, trivial, trivial⟩, ⟨rfl, fun _ => rfl⟩, trivial, trivial⟩

/-- A callback that only asks for the first key. -/
def firstKeyScript : Script ℕ ℕ (Operation ℕ ℕ) (Answer ℕ ℕ) :=
  .perform (.assign 1 10) fun _ => .perform (.assign 2 20) fun _ =>
    .putIfAbsent 3 (.perform .firstKey fun _ => .ret 30) fun value => .ret value

/-- The tree after the callback: 2 stands to the right of 3. -/
def misplaced : State ℕ ℕ :=
  ⟨.node (.node .null 1 10 .null) 3 30 (.node .null 2 20 .null), 3, 3, 2⟩

/-- The map does not find a key that was never removed. -/
theorem first_key_callback_misplaces :
    firstKeyScript.run (implementation natComparator) initial = .ok (30, misplaced) ∧
      (firstKeyScript.eval (specification natComparator ℕ) (.empty _ ℕ)).map.get 2 = some 20 ∧
      (lookup natComparator misplaced (some 2)).map Prod.fst = .ok none := by
  decide +kernel

end DartSdk.SplayTree
