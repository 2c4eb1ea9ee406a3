import ParallelEnum.Enumerable.Diam2Kplex.Serialize
import ParallelEnum.Util.Equiv.Serialize

/-!
# Reading into a destination that has been used

`deserialize_eq_iff`: what is left of the earlier contents of a destination.  `Deserialize` does not
write a pointer when it reads a null pointer, so two destinations are left equal exactly if they
hold the same wherever that happens (`SameWhereNull`).
-/

namespace ParallelEnum.Diam2Kplex

open Serializable

/-! ### What is left in a destination -/

/-- What reading a node leaves. -/
def nodeLeft {width : ℕ} (signed : Bool) (x out : NodeValue width) : NodeValue width :=
  let integralLeft : BitVec width → BitVec width → BitVec width := fun x _ =>
    BitVec.setWidth width (if signed then x.signExtend 64 else x.setWidth 64)
  { subgraph := pointerLeft (vertexVector width signed).default
      (vectorLeft 0 integralLeft) x.subgraph out.subgraph
    nadj := pointerLeft (vector (vertexVector width signed)).default
      (vectorLeft (vertexVector width signed).default (vectorLeft 0 integralLeft)) x.nadj out.nadj
    impl0 := x.impl0
    currentImpl := x.currentImpl }

namespace Ty

/-- What reading a value leaves. -/
def left : (t : Ty) → t.Value → t.Value → t.Value
  | integral width signed => fun x _ =>
    BitVec.setWidth width (if signed then x.signExtend 64 else x.setWidth 64)
  | bool => fun x _ => x
  | vector t => vectorLeft t.serializable.default t.left
  | pair t u => fun x out => (t.left x.1 out.1, u.left x.2 out.2)
  | sharedPtr t => pointerLeft t.serializable.default t.left
  | uniquePtr t => pointerLeft t.serializable.default t.left
  | node _ signed => nodeLeft signed

/-- The destinations `out` and `out'` hold the same wherever `x` has a null pointer.  They are
looked at as `resize` leaves them, and not behind the pointers of `x` that are not null: these get
new objects. -/
def SameWhereNull : (t : Ty) → t.Value → t.Value → t.Value → Prop
  | integral _ _ => fun _ _ _ => True
  | bool => fun _ _ _ => True
  | vector t => fun x out out' => ∀ i v, x.toList[i]? = some v →
    t.SameWhereNull v (out.toList.getD i t.serializable.default)
      (out'.toList.getD i t.serializable.default)
  | pair t u => fun x out out' =>
    t.SameWhereNull x.1 out.1 out'.1 ∧ u.SameWhereNull x.2 out.2 out'.2
  | sharedPtr _ => fun x out out' => x = none → out = out'
  | uniquePtr _ => fun x out out' => x = none → out = out'
  | node _ _ => fun x out out' =>
    (x.subgraph = none → out.subgraph = out'.subgraph) ∧ (x.nadj = none → out.nadj = out'.nadj)

end Ty

/-! ### What `Deserialize` does -/

/-- Elements that do not depend on the destination make a vector that does not. -/
theorem vectorLeft_eq_self {α : Type} {left : α → α → α} (default : α)
    (hleft : ∀ x out, left x out = x) (x out : StdVector α) :
    vectorLeft default left x out = x := by
  ext1
  apply List.ext_getElem?
  intro i
  unfold vectorLeft
  rw [List.getElem?_zipWith, getElem?_resize]
  by_cases hi : i < x.toList.length
  · rw [if_pos hi, List.getElem?_eq_getElem hi]
    exact congrArg some (hleft _ _)
  · rw [if_neg hi, List.getElem?_eq_none (Nat.le_of_not_lt hi)]

theorem leaves_unsigned {width : ℕ} (h : width ≤ 64) :
    (vector (integral width false)).Leaves fun x _ => x := by
  intro x out words
  rw [(leaves_integral width false).vector]
  have hself : ∀ x out : BitVec width, BitVec.setWidth width
      (if false = true then x.signExtend 64 else x.setWidth 64) = x := by
    intro x _
    rw [if_neg Bool.false_ne_true, setWidth_setWidth h]
  rw [vectorLeft_eq_self _ hself]

theorem leaves_impl : implSerializable.Leaves fun x _ => x := by
  have hsizes : sizes.Leaves fun x _ => x := leaves_unsigned le_rfl
  have hbytes : bytes.Leaves fun x _ => x := leaves_unsigned (by decide)
  intro x out words
  simp only [implSerializable, List.append_assoc, hsizes _ _, hbytes _ _, Option.bind_eq_bind,
    Option.bind_some]

theorem leaves_node (width : ℕ) (signed : Bool) :
    (nodeSerializable width signed).Leaves (nodeLeft signed) := by
  have hvertices := (leaves_integral width signed).vector
  have hsubgraph := hvertices.pointer
  have hnadj := hvertices.vector.pointer
  have hcurrent : (integral 64 false).Leaves fun x _ => x := by
    intro x out words
    show some (BitVec.setWidth 64 (BitVec.setWidth 64 x), words) = _
    rw [setWidth_setWidth le_rfl]
  intro x out words
  simp only [nodeSerializable, sharedPtr, vertexVector, List.append_assoc, hsubgraph _ _, hnadj _ _,
    leaves_impl _ _, hcurrent _ _, Option.bind_eq_bind, Option.bind_some]
  rfl

theorem Ty.leaves (t : Ty) : t.serializable.Leaves t.left := by
  induction t with
  | integral width signed => exact leaves_integral width signed
  | bool => exact leaves_bool
  | vector t ih => exact ih.vector
  | pair t u iht ihu => exact iht.pair ihu
  | sharedPtr t ih => exact ih.pointer
  | uniquePtr t ih => exact ih.pointer
  | node width signed => exact leaves_node width signed

/-! ### Two destinations -/

theorem pointerLeft_eq_iff {α : Type} (default : α) (left : α → α → α) (x out out' : Option α) :
    pointerLeft default left x out = pointerLeft default left x out' ↔
      (x = none → out = out') := by
  cases x with
  | none => exact ⟨fun h _ => h, fun h => h rfl⟩
  | some x => exact ⟨nofun, fun _ => rfl⟩

theorem nodeLeft_eq_iff {width : ℕ} (signed : Bool) (x out out' : NodeValue width) :
    nodeLeft signed x out = nodeLeft signed x out' ↔
      (Ty.node width signed).SameWhereNull x out out' := by
  unfold nodeLeft
  simp only [NodeValue.mk.injEq, pointerLeft_eq_iff, and_true]
  rfl

theorem Ty.left_eq_iff (t : Ty) (x out out' : t.Value) :
    t.left x out = t.left x out' ↔ t.SameWhereNull x out out' := by
  induction t with
  | integral width signed => exact ⟨fun _ => trivial, fun _ => rfl⟩
  | bool => exact ⟨fun _ => trivial, fun _ => rfl⟩
  | vector t ih =>
    refine (vectorLeft_eq_iff t.serializable.default x out out').trans ?_
    exact forall_congr' fun i => forall_congr' fun v => imp_congr_right fun _ => ih v _ _
  | pair t u iht ihu =>
    refine Prod.mk.injEq .. ▸ ?_
    exact and_congr (iht x.1 out.1 out'.1) (ihu x.2 out.2 out'.2)
  | sharedPtr t ih => exact pointerLeft_eq_iff _ _ _ _ _
  | uniquePtr t ih => exact pointerLeft_eq_iff _ _ _ _ _
  | node width signed => exact nodeLeft_eq_iff signed x out out'

/-- **Destinations.** Reading a value into two destinations succeeds and stops at the same word, and
what is left is equal exactly if the destinations hold the same wherever the value has a null
pointer. -/
theorem deserialize_eq_iff (t : Ty) (x out out' : t.Value) (words : List Word) :
    ∃ y y', t.serializable.deserialize out (t.serializable.serialize x ++ words) = some (y, words) ∧
      t.serializable.deserialize out' (t.serializable.serialize x ++ words) = some (y', words) ∧
      (y = y' ↔ t.SameWhereNull x out out') :=
  ⟨t.left x out, t.left x out', t.leaves x out words, t.leaves x out' words,
    t.left_eq_iff x out out'⟩

/-- A null pointer is read into a null pointer and into one that is not null. -/
theorem not_deserialize_eq : ¬∀ (t : Ty) (x out out' : t.Value),
    t.serializable.deserialize out (t.serializable.serialize x)
      = t.serializable.deserialize out' (t.serializable.serialize x) := by
  intro h
  have hnull : some ((none : Option Bool), ([] : List Word)) = some (some true, []) :=
    h (.sharedPtr .bool) none none (some true)
  revert hnull
  decide

end ParallelEnum.Diam2Kplex
