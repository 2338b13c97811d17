import Mathlib
import DartSdk.Checked

/-!
The types of the type flow analysis, from pkg/vm/lib/transformations/type_flow/types.dart: sets of
instances that are described by concrete classes, class cones and null. A class stands for its
node and for its id. A type argument is known as a `RuntimeType` or it is `AnyType`; a null
vector in a `RuntimeType` is the empty list, which no other vector is. Unions and intersections keep
every value that they should. The vector of type arguments of a concrete type is flattened: the
arguments of the interfaces are implied by those of the class. A call of a union or intersection
goes on with the other operand when that comes first in the order of the kinds, and a cone is
specialised when nothing is known about it, so a few calls are enough.
-/

namespace DartSdk.TypeFlow

open Checked

/-- A single type, with the flattened type arguments of its class. -/
inductive RuntimeType (D : Type) where
  | mk (type : D) (typeArgs : List (RuntimeType D))

mutual

def RuntimeType.same {D : Type} [DecidableEq D] : RuntimeType D → RuntimeType D → Bool
  | .mk type typeArgs, .mk type' typeArgs' =>
    type = type' && (typeArgs.isEmpty || sameAll typeArgs typeArgs')

/-- `listEquals`. -/
def sameAll {D : Type} [DecidableEq D] : List (RuntimeType D) → List (RuntimeType D) → Bool
  | [], [] => true
  | a :: as, b :: bs => a.same b && sameAll as bs
  | _, _ => false

end

inductive TypeArg (D : Type) where
  | any
  | runtime (type : RuntimeType D)

def TypeArg.isRuntime {D : Type} : TypeArg D → Bool
  | .any => false
  | .runtime _ => true

section

variable {D : Type} [DecidableEq D]

def TypeArg.same : TypeArg D → TypeArg D → Bool
  | .any, .any => true
  | .runtime r, .runtime s => r.same s
  | _, _ => false

/-- The intersection of two type arguments, or `none` for `EmptyType`. -/
def TypeArg.intersection : TypeArg D → TypeArg D → Option (TypeArg D)
  | .any, other => some other
  | .runtime r, .any => some (.runtime r)
  | .runtime r, .runtime s => if r.same s then some (.runtime r) else none

end

/-- The instances of one class, with a null vector when the type arguments are not known. -/
structure ConcreteType (C D : Type) where
  classNode : C
  typeArgs : Option (List (TypeArg D))

inductive Ty (C D : Type) where
  | empty
  | nullable (baseType : Ty C D)
  | any
  | set (types : List (ConcreteType C D))
  | cone (dartType : D)
  | concrete (type : ConcreteType C D)

/-- `TypeOrder`; `RuntimeType` is 0. -/
def Ty.order {C D : Type} : Ty C D → ℕ
  | .empty => 1
  | .nullable _ => 2
  | .any => 3
  | .set _ => 4
  | .cone _ => 5
  | .concrete _ => 6

structure TypeHierarchy (C D : Type) where
  isAbstract : C → Bool
  /-- The number of type parameters of a class. -/
  typeParameters : C → ℕ
  /-- The length of `flattenedTypeArgumentsFor`. -/
  flattenedLength : C → ℕ
  rawType : C → D
  isSubtype : D → D → Bool
  specializeTypeCone : D → Ty C D

section

variable {C D : Type} [LinearOrder C] [DecidableEq D] (h : TypeHierarchy C D)

/-- The constructor `ConcreteType` with its assertions. -/
def newConcrete (classNode : C) (typeArgs : Option (List (TypeArg D))) :
    Result (ConcreteType C D) := do
  check (!h.isAbstract classNode)
  check (typeArgs.isNone || 0 < h.typeParameters classNode)
  check (typeArgs.all fun args => args.any TypeArg.isRuntime)
  .ok ⟨classNode, typeArgs⟩

def ConcreteType.raw (t : ConcreteType C D) : Result (ConcreteType C D) :=
  newConcrete h t.classNode none

def ConcreteType.numImmediateTypeArgs (t : ConcreteType C D) : ℕ :=
  if t.typeArgs.isSome then h.typeParameters t.classNode else 0

/-- The comparison of the first `n` type arguments. -/
def samePrefix : ℕ → List (TypeArg D) → List (TypeArg D) → Bool
  | 0, _, _ => true
  | n + 1, a :: as, b :: bs => a.same b && samePrefix n as bs
  | _ + 1, _, _ => false

def ConcreteType.same (t other : ConcreteType C D) : Bool :=
  if t.classNode ≠ other.classNode ∨ t.numImmediateTypeArgs h ≠ other.numImmediateTypeArgs h then
    false
  else
    match t.typeArgs, other.typeArgs with
    | some args, some args' => samePrefix (t.numImmediateTypeArgs h) args args'
    | some _, none => false
    | none, _ => true

def isSorted : List (ConcreteType C D) → Bool
  | a :: b :: types => a.classNode < b.classNode && isSorted (b :: types)
  | _ => true

def Ty.isNullable {C D : Type} : Ty C D → Bool
  | .nullable _ => true
  | _ => false

/-- The constructor `NullableType` with its assertions. -/
def newNullable (baseType : Ty C D) : Result (Ty C D) := do
  check (!baseType.isNullable)
  .ok (.nullable baseType)

/-- The constructor `SetType` with its assertions. -/
def newSet (types : List (ConcreteType C D)) : Result (Ty C D) := do
  check (2 ≤ types.length)
  check (isSorted types)
  .ok (.set types)

def sameTypes : List (ConcreteType C D) → List (ConcreteType C D) → Bool
  | [], [] => true
  | a :: as, b :: bs => a.same h b && sameTypes as bs
  | _, _ => false

def Ty.same : Ty C D → Ty C D → Bool
  | .empty, .empty => true
  | .nullable a, .nullable b => a.same b
  | .any, .any => true
  | .set types, .set types' => sameTypes h types types'
  | .cone d, .cone d' => d = d'
  | .concrete t, .concrete t' => t.same h t'
  | _, _ => false

def unionLists : List (ConcreteType C D) → List (ConcreteType C D) →
    Result (List (ConcreteType C D))
  | [], types₂ => .ok types₂
  | types₁, [] => .ok types₁
  | t₁ :: types₁, t₂ :: types₂ => do
      if t₁.classNode < t₂.classNode then
        .ok (t₁ :: (← unionLists types₁ (t₂ :: types₂)))
      else if t₂.classNode < t₁.classNode then
        .ok (t₂ :: (← unionLists (t₁ :: types₁) types₂))
      else if t₁.same h t₂ then
        .ok (t₁ :: (← unionLists types₁ types₂))
      else do
        let raw ← t₁.raw h
        .ok (raw :: (← unionLists types₁ types₂))
termination_by types₁ types₂ => types₁.length + types₂.length

/-- `ConcreteType.union` with a concrete type. -/
def ConcreteType.union (t other : ConcreteType C D) : Result (Ty C D) :=
  if t.same h other then .ok (.concrete t)
  else if t.classNode ≠ other.classNode then
    newSet (if t.classNode < other.classNode then [t, other] else [other, t])
  else do
    check (t.typeArgs.isSome || other.typeArgs.isSome)
    let raw ← t.raw h
    .ok (.concrete raw)

/-- `union`, in so many calls; an order below its own sends a type to the other one. -/
def union : ℕ → Ty C D → Ty C D → Result (Ty C D)
  | 0, _, _ => .error .diverges
  | fuel + 1, self, other =>
    match self with
    | .empty => .ok other
    | .nullable baseType =>
      if other.order < self.order then union fuel other self
      else
        match other with
        | .nullable baseType' => do newNullable (← union fuel baseType baseType')
        | _ => do newNullable (← union fuel baseType other)
    | .any => if other.order < self.order then union fuel other self else .ok self
    | .set types =>
      if other.order < self.order then union fuel other self
      else
        match other with
        | .set types' => do newSet (← unionLists h types types')
        | .concrete t =>
          if types.any fun type => type.same h t then .ok self
          else do newSet (← unionLists h types [t])
        | .cone dartType => union fuel (h.specializeTypeCone dartType) self
        | _ => .error .fatal
    | .cone dartType =>
      if other.order < self.order then union fuel other self
      else
        match other with
        | .cone dartType' =>
          if dartType = dartType' then .ok self
          else if h.isSubtype dartType' dartType then .ok self
          else if h.isSubtype dartType dartType' then .ok other
          else union fuel (h.specializeTypeCone dartType) other
        | .concrete t =>
          if h.isSubtype (h.rawType t.classNode) dartType then .ok self
          else union fuel (h.specializeTypeCone dartType) other
        | _ => union fuel (h.specializeTypeCone dartType) other
    | .concrete t =>
      if other.order < self.order then union fuel other self
      else
        match other with
        | .concrete t' => t.union h t'
        | _ => .error .fatal

/-- The loop over the type arguments in `ConcreteType.intersection`; `none` for an empty
intersection. -/
def mergeTypeArgs : List (TypeArg D) → List (TypeArg D) → Result (Option (List (TypeArg D)))
  | [], _ => .ok (some [])
  | _ :: _, [] => .error .outOfBounds
  | a :: as, b :: bs =>
    match a.intersection b with
    | none => .ok none
    | some merged => do
        match ← mergeTypeArgs as bs with
        | none => .ok none
        | some rest => .ok (some (merged :: rest))

/-- `ConcreteType.intersection` with a concrete type, or `none` for `EmptyType`. -/
def ConcreteType.intersection (t other : ConcreteType C D) :
    Result (Option (ConcreteType C D)) :=
  if t.same h other then .ok (some t)
  else if t.classNode ≠ other.classNode then .ok none
  else do
    check (t.typeArgs.isSome || other.typeArgs.isSome)
    match t.typeArgs, other.typeArgs with
    | none, _ => .ok (some other)
    | some _, none => .ok (some t)
    | some args, some args' =>
      match ← mergeTypeArgs args args' with
      | none => .ok none
      | some merged => do
          let result ←
            newConcrete h t.classNode (if merged.any TypeArg.isRuntime then some merged else none)
          .ok (some result)

def intersectLists : List (ConcreteType C D) → List (ConcreteType C D) →
    Result (List (ConcreteType C D))
  | [], _ => .ok []
  | _, [] => .ok []
  | t₁ :: types₁, t₂ :: types₂ => do
      if t₁.classNode < t₂.classNode then intersectLists types₁ (t₂ :: types₂)
      else if t₂.classNode < t₁.classNode then intersectLists (t₁ :: types₁) types₂
      else if t₁.typeArgs.isNone && t₂.typeArgs.isNone then
        .ok (t₁ :: (← intersectLists types₁ types₂))
      else do
        match ← t₁.intersection h t₂ with
        | none => intersectLists types₁ types₂
        | some t => .ok (t :: (← intersectLists types₁ types₂))
termination_by types₁ types₂ => types₁.length + types₂.length

/-- A concrete type, or `EmptyType`. -/
def ofOption : Option (ConcreteType C D) → Ty C D
  | none => .empty
  | some t => .concrete t

/-- The loop over the types of a set in `SetType.intersection` with a concrete type. -/
def intersectConcrete (other : ConcreteType C D) : List (ConcreteType C D) → Result (Ty C D)
  | [] => .ok .empty
  | type :: types =>
    if type.same h other then .ok (.concrete other)
    else if type.classNode = other.classNode then do
      .ok (ofOption (← type.intersection h other))
    else intersectConcrete other types

/-- The type of a sorted list of concrete types. -/
def ofList (types : List (ConcreteType C D)) : Result (Ty C D) :=
  match types with
  | [] => .ok .empty
  | [t] => .ok (.concrete t)
  | types => newSet types

/-- `intersection`, in so many calls. -/
def intersection : ℕ → Ty C D → Ty C D → Result (Ty C D)
  | 0, _, _ => .error .diverges
  | fuel + 1, self, other =>
    match self with
    | .empty => .ok self
    | .nullable baseType =>
      if other.order < self.order then intersection fuel other self
      else
        match other with
        | .nullable baseType' => do newNullable (← intersection fuel baseType baseType')
        | _ => intersection fuel baseType other
    | .any => if other.order < self.order then intersection fuel other self else .ok other
    | .set types =>
      if other.order < self.order then intersection fuel other self
      else
        match other with
        | .set types' => do ofList (← intersectLists h types types')
        | .concrete t => intersectConcrete h t types
        | .cone dartType => intersection fuel (h.specializeTypeCone dartType) self
        | _ => .error .fatal
    | .cone dartType =>
      if other.order < self.order then intersection fuel other self
      else
        match other with
        | .cone dartType' =>
          if dartType = dartType' then .ok self
          else if h.isSubtype dartType' dartType then .ok other
          else if h.isSubtype dartType dartType' then .ok self
          else intersection fuel (h.specializeTypeCone dartType) other
        | .concrete t =>
          if h.isSubtype (h.rawType t.classNode) dartType then .ok other else .ok .empty
        | _ => intersection fuel (h.specializeTypeCone dartType) other
    | .concrete t =>
      if other.order < self.order then intersection fuel other self
      else
        match other with
        | .concrete t' => do .ok (ofOption (← t.intersection h t'))
        | _ => .error .fatal

section Cases

variable (fuel : ℕ) (types : List (ConcreteType C D)) (t : ConcreteType C D) (d d' : D)

variable {other base : Ty C D}

lemma union_any (hother : other.isNullable = false) (hempty : other ≠ .empty) :
    union h (fuel + 1) .any other = .ok .any := by
  cases other with
  | empty => exact absurd rfl hempty
  | nullable base => cases hother
  | _ => rfl

lemma union_nullable (hother : other.isNullable = false) (hempty : other ≠ .empty) :
    union h (fuel + 1) (.nullable base) other = (do newNullable (← union h fuel base other)) := by
  cases other with
  | empty => exact absurd rfl hempty
  | nullable base => cases hother
  | _ => rfl

lemma union_set_concrete : union h (fuel + 1) (.set types) (.concrete t) =
    if types.any fun type => type.same h t then .ok (.set types)
    else (do newSet (← unionLists h types [t])) :=
  rfl

lemma union_cone_cone : union h (fuel + 1) (.cone d) (.cone d') =
    if d = d' then .ok (.cone d)
    else if h.isSubtype d' d then .ok (.cone d)
    else if h.isSubtype d d' then .ok (.cone d')
    else union h fuel (h.specializeTypeCone d) (.cone d') :=
  rfl

lemma union_cone_concrete : union h (fuel + 1) (.cone d) (.concrete t) =
    if h.isSubtype (h.rawType t.classNode) d then .ok (.cone d)
    else union h fuel (h.specializeTypeCone d) (.concrete t) :=
  rfl

lemma intersection_any (hother : other.isNullable = false)
    (hempty : other ≠ .empty) : intersection h (fuel + 1) .any other = .ok other := by
  cases other with
  | empty => exact absurd rfl hempty
  | nullable base => cases hother
  | _ => rfl

lemma intersection_nullable (hother : other.isNullable = false) (hempty : other ≠ .empty) :
    intersection h (fuel + 1) (.nullable base) other = intersection h fuel base other := by
  cases other with
  | empty => exact absurd rfl hempty
  | nullable base => cases hother
  | _ => rfl

lemma intersection_cone_cone : intersection h (fuel + 1) (.cone d) (.cone d') =
    if d = d' then .ok (.cone d)
    else if h.isSubtype d' d then .ok (.cone d')
    else if h.isSubtype d d' then .ok (.cone d)
    else intersection h fuel (h.specializeTypeCone d) (.cone d') :=
  rfl

lemma intersection_cone_concrete : intersection h (fuel + 1) (.cone d) (.concrete t) =
    if h.isSubtype (h.rawType t.classNode) d then .ok (.concrete t) else .ok .empty :=
  rfl

end Cases

end

end DartSdk.TypeFlow
