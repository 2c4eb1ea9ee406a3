import ParallelEnum.Util.Serialize
import Mathlib.Data.List.Basic

/-!
# What is written is read back

`RoundTrips` says of the overloads for a type that `Deserialize` reads what `Serialize` has
written, into a default-constructed value, and stops where it ends.  It passes from the parts of a
type to the type; an integral type has it if it is no wider than a word.

`Leaves` says what is left in any destination.  It passes from the parts of a type to the type as
well, for every width.
-/

namespace ParallelEnum.Serializable

variable {α β : Type} {c : Serializable α} {d : Serializable β}

/-- `Deserialize` reads back what `Serialize` has written. -/
def RoundTrips (c : Serializable α) : Prop :=
  ∀ x words, c.deserialize c.default (c.serialize x ++ words) = some (x, words)

/-! ### Single words -/

theorem setWidth_signExtend {width : ℕ} (h : width ≤ 64) (x : BitVec width) :
    (x.signExtend 64).setWidth width = x := by
  apply BitVec.eq_of_getElem_eq
  intro i hi
  rw [BitVec.getElem_setWidth, BitVec.getLsbD_signExtend]
  simp [hi, show i < 64 by omega]

theorem setWidth_setWidth {width : ℕ} (h : width ≤ 64) (x : BitVec width) :
    (x.setWidth 64).setWidth width = x := by
  apply BitVec.eq_of_getElem_eq
  intro i hi
  rw [BitVec.getElem_setWidth, BitVec.getLsbD_setWidth]
  simp [hi, show i < 64 by omega]

/-- Widening and narrowing again gives the value back, whatever the sign. -/
theorem roundTrips_integral {width : ℕ} (h : width ≤ 64) (signed : Bool) :
    (integral width signed).RoundTrips := by
  intro x words
  show some (BitVec.setWidth width (if signed then x.signExtend 64 else x.setWidth 64), words) = _
  cases signed with
  | false => rw [if_neg Bool.false_ne_true, setWidth_setWidth h]
  | true => rw [if_pos rfl, setWidth_signExtend h]

theorem roundTrips_bool : bool.RoundTrips := by
  intro x words
  cases x <;> rfl

/-! ### Composed types -/

/-- The loop over the elements of a vector that has just been resized. -/
theorem RoundTrips.deserializeAll (hc : c.RoundTrips) (xs : List α) (words : List Word)
    {out : List α} (hout : out = List.replicate xs.length c.default) :
    ∃ h, c.deserializeAll out (xs.flatMap c.serialize ++ words) = some (⟨xs, h⟩, words) := by
  induction xs generalizing out with
  | nil =>
    subst hout
    exact ⟨rfl, rfl⟩
  | cons x xs ih =>
    rw [List.length_cons, List.replicate_succ] at hout
    subst hout
    obtain ⟨h, hrun⟩ := ih rfl
    refine ⟨congrArg Nat.succ h, ?_⟩
    rw [List.flatMap_cons, List.append_assoc, Serializable.deserializeAll, hc, Option.bind_some,
      hrun]
    rfl

theorem RoundTrips.vector (hc : c.RoundTrips) : (Serializable.vector c).RoundTrips := by
  intro x words
  have hlen : (BitVec.ofNat 64 x.toList.length).toNat = x.toList.length := by
    rw [BitVec.toNat_ofNat]
    exact Nat.mod_eq_of_lt x.length_lt
  have hout : resize c.default [] (BitVec.ofNat 64 x.toList.length).toNat
      = List.replicate x.toList.length c.default := by
    rw [hlen]
    simp [resize]
  obtain ⟨h, hrun⟩ := hc.deserializeAll x.toList words hout
  show (c.deserializeAll (resize c.default [] _) (x.toList.flatMap c.serialize ++ words)).map _ = _
  rw [hrun]
  rfl

theorem RoundTrips.pointer (hc : c.RoundTrips) : (Serializable.pointer c).RoundTrips := by
  intro x words
  cases x with
  | none => rfl
  | some x =>
    show (c.deserialize c.default (c.serialize x ++ words)).map _ = _
    rw [hc]
    rfl

theorem RoundTrips.pair (hc : c.RoundTrips) (hd : d.RoundTrips) :
    (Serializable.pair c d).RoundTrips := by
  intro x words
  show (c.deserialize c.default (c.serialize x.1 ++ d.serialize x.2 ++ words)).bind _ = _
  rw [List.append_assoc, hc, Option.bind_some]
  show (d.deserialize d.default (d.serialize x.2 ++ words)).map _ = _
  rw [hd]
  rfl

/-! ### Destinations -/

/-- Reading what `x` has been written as into the destination `out` leaves `left x out` there. -/
def Leaves (c : Serializable α) (left : α → α → α) : Prop :=
  ∀ x out words, c.deserialize out (c.serialize x ++ words) = some (left x out, words)

theorem getElem?_resize (default : α) (out : List α) (n i : ℕ) :
    (resize default out n)[i]? = if i < n then some (out.getD i default) else none := by
  unfold resize
  rw [List.getElem?_append, List.getElem?_take, List.getElem?_replicate, List.length_take,
    List.getD_eq_getElem?_getD]
  by_cases hn : i < n
  · rw [if_pos hn]
    by_cases hout : i < out.length
    · rw [if_pos (Nat.lt_min.mpr ⟨hn, hout⟩), if_pos hn, List.getElem?_eq_getElem hout]
      rfl
    · have hmin : ¬i < min n out.length := fun h => hout (Nat.lt_min.mp h).2
      have hrest : i - min n out.length < n - out.length := by omega
      rw [if_neg hmin, if_pos hrest, if_pos hn, List.getElem?_eq_none (Nat.le_of_not_lt hout)]
      rfl
  · have hmin : ¬i < min n out.length := fun h => hn (Nat.lt_min.mp h).1
    have hrest : ¬i - min n out.length < n - out.length := by omega
    rw [if_neg hn, if_neg hmin, if_neg hrest, if_neg hn]

/-- What is left in a vector: its elements are read into those that `resize` leaves. -/
def vectorLeft (default : α) (left : α → α → α) (x out : StdVector α) : StdVector α where
  toList := List.zipWith left x.toList (resize default out.toList x.toList.length)
  length_lt := by
    rw [List.length_zipWith, length_resize, Nat.min_self]
    exact x.length_lt

/-- What is left in a pointer: a null pointer is not written. -/
def pointerLeft (default : α) (left : α → α → α) (x out : Option α) : Option α :=
  match x with
  | some x => some (left x default)
  | none => out

theorem leaves_integral (width : ℕ) (signed : Bool) :
    (integral width signed).Leaves fun x _ =>
      BitVec.setWidth width (if signed then x.signExtend 64 else x.setWidth 64) :=
  fun _ _ _ => rfl

theorem leaves_bool : bool.Leaves fun x _ => x := by
  intro x out words
  cases x <;> rfl

section Leaves

variable {left : α → α → α} {left' : β → β → β}

/-- The loop over the elements of a vector that has been resized. -/
theorem Leaves.deserializeAll (hc : c.Leaves left) (xs out : List α) (words : List Word)
    (hout : out.length = xs.length) :
    ∃ h, c.deserializeAll out (xs.flatMap c.serialize ++ words)
      = some (⟨List.zipWith left xs out, h⟩, words) := by
  induction xs generalizing out with
  | nil =>
    obtain rfl := List.eq_nil_of_length_eq_zero hout
    exact ⟨rfl, rfl⟩
  | cons x xs ih =>
    cases out with
    | nil => cases hout
    | cons y out =>
      obtain ⟨h, hrun⟩ := ih out (Nat.succ.inj hout)
      refine ⟨congrArg Nat.succ h, ?_⟩
      rw [List.flatMap_cons, List.append_assoc, Serializable.deserializeAll, hc, Option.bind_some,
        hrun]
      rfl

theorem Leaves.vector (hc : c.Leaves left) :
    (Serializable.vector c).Leaves (vectorLeft c.default left) := by
  intro x out words
  have hlen : (BitVec.ofNat 64 x.toList.length).toNat = x.toList.length := by
    rw [BitVec.toNat_ofNat]
    exact Nat.mod_eq_of_lt x.length_lt
  obtain ⟨h, hrun⟩ := hc.deserializeAll x.toList
    (resize c.default out.toList (BitVec.ofNat 64 x.toList.length).toNat) words
    (by rw [length_resize, hlen])
  show (c.deserializeAll (resize c.default out.toList _)
    (x.toList.flatMap c.serialize ++ words)).map _ = _
  rw [hrun, Option.map_some]
  unfold vectorLeft
  simp only [hlen]

theorem Leaves.pointer (hc : c.Leaves left) :
    (Serializable.pointer c).Leaves (pointerLeft c.default left) := by
  intro x out words
  cases x with
  | none => rfl
  | some x =>
    show (c.deserialize c.default (c.serialize x ++ words)).map _ = _
    rw [hc]
    rfl

theorem Leaves.pair {d : Serializable β} (hc : c.Leaves left) (hd : d.Leaves left') :
    (Serializable.pair c d).Leaves fun x out => (left x.1 out.1, left' x.2 out.2) := by
  intro x out words
  show (c.deserialize out.1 (c.serialize x.1 ++ d.serialize x.2 ++ words)).bind _ = _
  rw [List.append_assoc, hc, Option.bind_some]
  show (d.deserialize out.2 (d.serialize x.2 ++ words)).map _ = _
  rw [hd]
  rfl

/-- Two vectors are left equal if their elements are, with default elements where one is shorter
than what is read. -/
theorem vectorLeft_eq_iff (default : α) (x out out' : StdVector α) :
    vectorLeft default left x out = vectorLeft default left x out' ↔
      ∀ i v, x.toList[i]? = some v →
        left v (out.toList.getD i default) = left v (out'.toList.getD i default) := by
  have hget : ∀ (out : StdVector α) (i : ℕ), (vectorLeft default left x out).toList[i]?
      = x.toList[i]?.map fun v => left v (out.toList.getD i default) := by
    intro out i
    unfold vectorLeft
    rw [List.getElem?_zipWith, getElem?_resize]
    by_cases hi : i < x.toList.length
    · rw [if_pos hi, List.getElem?_eq_getElem hi]
      rfl
    · rw [if_neg hi, List.getElem?_eq_none (Nat.le_of_not_lt hi)]
      rfl
  constructor
  · intro h i v hv
    have hi := congrArg (fun y : StdVector α => y.toList[i]?) h
    simp only [hget, hv, Option.map_some, Option.some.injEq] at hi
    exact hi
  · intro h
    ext1
    apply List.ext_getElem?
    intro i
    rw [hget, hget]
    cases hv : x.toList[i]? with
    | none => rfl
    | some v => exact congrArg some (h i v hv)

end Leaves

end ParallelEnum.Serializable
