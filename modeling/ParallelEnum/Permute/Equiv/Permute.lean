import ParallelEnum.Permute.Permute
import ParallelEnum.Util.Equiv.Graph
import Mathlib.Data.Finset.Card

/-!
# The degeneracy order

`Placed` says that the buckets hold the vertices of a set, each at its recorded position in the
bucket of its degree.  The loops of `DegeneracyOrder` keep it, so that the vertex taken in a round
has minimum degree among those left (`Order.round`).

* `degeneracyOrderChecked_eq`: no access is out of range.
* `degeneracyOrder_perm`: the order is a permutation of the vertices.
-/

namespace ParallelEnum

namespace Buckets

/-- The vertices of `live` are in the buckets, each in the one of its `deg`. -/
structure Placed (n : ℕ) (live : Finset ℕ) (deg : ℕ → ℕ) (s : Buckets) : Prop where
  size_d : s.d.size = n
  size_degs : s.degs.size = n
  size_positions : s.positions.size = n
  lt : ∀ x ∈ live, x < n ∧ deg x < n
  degs_eq : ∀ x ∈ live, s.degs.get x = deg x
  slot : ∀ x ∈ live, s.positions.get x < (s.d.get (deg x)).size ∧
    (s.d.get (deg x)).get (s.positions.get x) = x
  entry : ∀ r, ∀ p < (s.d.get r).size, (s.d.get r).get p ∈ live ∧
    deg ((s.d.get r).get p) = r ∧ s.positions.get ((s.d.get r).get p) = p

variable {n : ℕ} {live : Finset ℕ} {deg : ℕ → ℕ} {s : Buckets}

/-- Two vertices in one slot are one vertex. -/
theorem Placed.eq_of_slot (h : Placed n live deg s) {x y : ℕ} (hx : x ∈ live) (hy : y ∈ live)
    (hdeg : deg x = deg y) (hpos : s.positions.get x = s.positions.get y) : x = y := by
  rw [← (h.slot x hx).2, ← (h.slot y hy).2, hdeg, hpos]

theorem Placed.placeChecked_eq (h : Placed n live deg s) {x r : ℕ} (hxn : x < n) (hrn : r < n) :
    s.placeChecked x r = some (s.place x r) := by
  have hr : r < s.d.size := h.size_d ▸ hrn
  have hdegs : x < s.degs.size := h.size_degs ▸ hxn
  have hpos : x < s.positions.size := h.size_positions ▸ hxn
  unfold Buckets.placeChecked Buckets.place
  rw [Vec.read_bind hr]
  dsimp only
  rw [Vec.write_bind hr, Vec.write_bind hdegs, Vec.write_bind hpos]
  rfl

/-- A vertex joins a bucket at its end. -/
theorem Placed.place (h : Placed n live deg s) {x r : ℕ} (hx : x ∉ live) (hxn : x < n)
    (hrn : r < n) : Placed n (insert x live) (Function.update deg x r) (s.place x r) := by
  have hne : ∀ y ∈ live, y ≠ x := fun y hy hyx => hx (hyx ▸ hy)
  have hdeg : ∀ y ∈ live, Function.update deg x r y = deg y := fun y hy =>
    Function.update_of_ne (hne y hy) r deg
  have hrow : ∀ r', (s.place x r).d.get r'
      = if r = r' then (s.d.get r).push x else s.d.get r' := by
    intro r'
    unfold Buckets.place
    rw [Vec.get_set, h.size_d]
    simp [hrn]
  have hposx : (s.place x r).positions.get x = (s.d.get r).size := by
    unfold Buckets.place
    rw [Vec.get_set_self (by rw [h.size_positions]; exact hxn)]
    simp
  have hpos : ∀ y, y ≠ x → (s.place x r).positions.get y = s.positions.get y := fun y hy =>
    Vec.get_set_of_ne _ (Ne.symm hy) _
  constructor
  case size_d => exact (Vec.size_set _ _ _).trans h.size_d
  case size_degs => exact (Vec.size_set _ _ _).trans h.size_degs
  case size_positions => exact (Vec.size_set _ _ _).trans h.size_positions
  case lt =>
    intro y hy
    rcases Finset.mem_insert.mp hy with rfl | hy
    · rw [Function.update_self]
      exact ⟨hxn, hrn⟩
    · rw [hdeg y hy]
      exact h.lt y hy
  case degs_eq =>
    intro y hy
    show (s.degs.set x r).get y = _
    rcases Finset.mem_insert.mp hy with rfl | hy
    · rw [Function.update_self, Vec.get_set_self (by rw [h.size_degs]; exact hxn)]
    · rw [hdeg y hy, Vec.get_set_of_ne _ (hne y hy).symm]
      exact h.degs_eq y hy
  case slot =>
    intro y hy
    rw [hrow]
    rcases Finset.mem_insert.mp hy with rfl | hy
    · rw [Function.update_self, if_pos rfl, hposx, Vec.get_push, if_pos rfl, Array.size_push]
      exact ⟨Nat.lt_succ_self _, rfl⟩
    · obtain ⟨h1, h2⟩ := h.slot y hy
      rw [hdeg y hy, hpos y (hne y hy)]
      split_ifs with hr
      · subst hr
        rw [Array.size_push, Vec.get_push, if_neg h1.ne]
        exact ⟨by omega, h2⟩
      · exact ⟨h1, h2⟩
  case entry =>
    intro r' p hp
    rw [hrow] at hp ⊢
    -- the earlier entries of a bucket stay where they are
    have hold : ∀ p < (s.d.get r').size, (s.d.get r').get p ∈ insert x live ∧
        Function.update deg x r ((s.d.get r').get p) = r' ∧
          (s.place x r).positions.get ((s.d.get r').get p) = p := by
      intro p hp
      obtain ⟨h1, h2, h3⟩ := h.entry r' p hp
      exact ⟨Finset.mem_insert_of_mem h1, (hdeg _ h1).trans h2, (hpos _ (hne _ h1)).trans h3⟩
    split_ifs at hp ⊢ with hr
    · subst hr
      rw [Array.size_push] at hp
      rw [Vec.get_push]
      split_ifs with hlast
      · rw [Function.update_self, hposx]
        exact ⟨Finset.mem_insert_self x live, rfl, hlast.symm⟩
      · exact hold p (by omega)
    · exact hold p hp

/-- The bucket `row` without its entry at `p`: the last entry comes to its place. -/
def dropAt (row : Vec ℕ) (p : ℕ) : Vec ℕ :=
  ((row.set p row.back).set (row.size - 1) (row.get p)).pop

theorem size_dropAt (row : Vec ℕ) (p : ℕ) : (dropAt row p).size = row.size - 1 := by
  unfold dropAt
  rw [Array.size_pop, Vec.size_set, Vec.size_set]

/-- The entry that comes to the place of the one that is removed is the last one. -/
theorem get_swapped {row : Vec ℕ} {p : ℕ} (hp : p < row.size) :
    ((row.set p row.back).set (row.size - 1) (row.get p)).get p = row.back := by
  rw [Vec.get_set, Vec.size_set, Vec.get_set_self hp]
  split_ifs with heq
  · rw [← heq.1]
    rfl
  · rfl

theorem get_dropAt {row : Vec ℕ} {p i : ℕ} (hp : p < row.size) (hi : i < row.size - 1) :
    (dropAt row p).get i = if i = p then row.back else row.get i := by
  have hsize : ((row.set p row.back).set (row.size - 1) (row.get p)).size = row.size := by
    rw [Vec.size_set, Vec.size_set]
  unfold dropAt
  rw [Vec.get_pop _ (by omega)]
  split_ifs with hip
  · rw [hip, get_swapped hp]
  · rw [Vec.get_set_of_ne _ (by omega), Vec.get_set_of_ne _ (Ne.symm hip)]

theorem Placed.unlink_eq (h : Placed n live deg s) {x : ℕ} (hx : x ∈ live) :
    s.unlink x = { s with
      positions := s.positions.set (s.d.get (deg x)).back (s.positions.get x)
      d := s.d.set (deg x) (dropAt (s.d.get (deg x)) (s.positions.get x)) } := by
  unfold Buckets.unlink
  rw [h.degs_eq x hx]
  dsimp only
  rw [get_swapped (h.slot x hx).1]
  rfl

theorem Placed.unlinkChecked_eq (h : Placed n live deg s) {x : ℕ} (hx : x ∈ live) :
    s.unlinkChecked x = some (s.unlink x) := by
  obtain ⟨hxn, hrn⟩ := h.lt x hx
  obtain ⟨hslot, -⟩ := h.slot x hx
  have hr : deg x < s.d.size := h.size_d ▸ hrn
  have hlast : (s.d.get (deg x)).size - 1 < (s.d.get (deg x)).size := by omega
  -- the last entry is the one whose position changes
  have hback : (s.d.get (deg x)).back < s.positions.size := by
    rw [h.size_positions]
    exact (h.lt _ (h.entry _ _ hlast).1).1
  unfold Buckets.unlinkChecked
  rw [Vec.read_bind (h.size_degs ▸ hxn), Vec.read_bind (h.size_positions ▸ hxn), h.unlink_eq hx,
    h.degs_eq x hx, Vec.read_bind hr, Vec.read_bind hslot, Vec.read_bind hlast,
    Vec.write_bind hslot, Vec.size_set, Vec.write_bind (by rw [Vec.size_set]; exact hlast),
    Vec.read_bind (by rw [Vec.size_set, Vec.size_set]; exact hslot)]
  change (s.positions.write (Vec.get (((s.d.get (deg x)).set (s.positions.get x)
    (s.d.get (deg x)).back).set _ _) _) _ >>= _) = _
  rw [get_swapped hslot, Vec.write_bind hback, Vec.write_bind hr]
  rfl

/-- A vertex leaves its bucket. -/
theorem Placed.unlink (h : Placed n live deg s) {x : ℕ} (hx : x ∈ live) :
    Placed n (live.erase x) deg (s.unlink x) := by
  obtain ⟨hslot, hget⟩ := h.slot x hx
  have hrn := (h.lt x hx).2
  have hrun := h.unlink_eq hx
  set r := deg x with hr
  set p := s.positions.get x with hp
  set row := s.d.get r with hrow
  -- `b` is the last entry of the bucket, and comes to the place of `x`
  set b := row.back with hb
  have hlast : row.size - 1 < row.size := by omega
  obtain ⟨hbl, hbdeg, hbpos⟩ : b ∈ live ∧ deg b = r ∧ s.positions.get b = row.size - 1 :=
    h.entry r (row.size - 1) hlast
  have hentry : ∀ i < row.size, row.get i ∈ live ∧ deg (row.get i) = r ∧
      s.positions.get (row.get i) = i := h.entry r
  have hd : ∀ r', (s.unlink x).d.get r' = if r = r' then dropAt row p else s.d.get r' := by
    intro r'
    rw [hrun]
    show (s.d.set r (dropAt row p)).get r' = _
    rw [Vec.get_set, h.size_d]
    simp [hrn]
  have hposb : (s.unlink x).positions.get b = p := by
    rw [hrun]
    exact Vec.get_set_self (by rw [h.size_positions]; exact (h.lt b hbl).1) _
  have hpos : ∀ y, y ≠ b → (s.unlink x).positions.get y = s.positions.get y := by
    intro y hy
    rw [hrun]
    exact Vec.get_set_of_ne _ (Ne.symm hy) _
  constructor
  case size_d =>
    rw [hrun]
    exact (Vec.size_set _ _ _).trans h.size_d
  case size_degs =>
    rw [hrun]
    exact h.size_degs
  case size_positions =>
    rw [hrun]
    exact (Vec.size_set _ _ _).trans h.size_positions
  case lt => exact fun y hy => h.lt y (Finset.mem_of_mem_erase hy)
  case degs_eq =>
    intro y hy
    rw [hrun]
    exact h.degs_eq y (Finset.mem_of_mem_erase hy)
  case slot =>
    intro y hy
    obtain ⟨hyx, hyl⟩ := Finset.mem_erase.mp hy
    obtain ⟨h1, h2⟩ := h.slot y hyl
    rw [hd]
    by_cases hry : r = deg y
    · rw [if_pos hry, size_dropAt]
      rw [← hry] at h1 h2
      change s.positions.get y < row.size at h1
      by_cases hyb : y = b
      · -- the last entry has moved to `p`, which is not the last place
        have hpl : p ≠ row.size - 1 := by
          intro heq
          apply hyx
          rw [hyb, hb, ← hget, heq]
          rfl
        rw [hyb, hposb, get_dropAt hslot (by omega), if_pos rfl]
        exact ⟨by omega, rfl⟩
      · have hy1 : s.positions.get y ≠ row.size - 1 := by
          intro heq
          apply hyb
          rw [← h2, heq]
          rfl
        have hy2 : s.positions.get y ≠ p := fun heq => hyx (h.eq_of_slot hyl hx hry.symm heq)
        rw [hpos y hyb, get_dropAt hslot (by omega), if_neg hy2]
        exact ⟨by omega, h2⟩
    · have hyb : y ≠ b := fun heq => hry (by rw [heq]; exact hbdeg.symm)
      rw [if_neg hry, hpos y hyb]
      exact ⟨h1, h2⟩
  case entry =>
    intro r' i hi
    rw [hd] at hi ⊢
    split_ifs at hi ⊢ with hrr
    · subst hrr
      rw [size_dropAt] at hi
      rw [get_dropAt hslot hi]
      split_ifs with hip
      · subst hip
        refine ⟨Finset.mem_erase.mpr ⟨?_, hbl⟩, hbdeg, hposb⟩
        intro hbx
        have hbx : b = x := hbx
        rw [hbx] at hbpos
        omega
      · obtain ⟨h1, h2, h3⟩ := hentry i (by omega)
        have hyb : row.get i ≠ b := by
          intro heq
          rw [heq] at h3
          omega
        refine ⟨Finset.mem_erase.mpr ⟨?_, h1⟩, h2, (hpos _ hyb).trans h3⟩
        intro hix
        rw [hix] at h3
        exact hip h3.symm
    · obtain ⟨h1, h2, h3⟩ := h.entry r' i hi
      refine ⟨Finset.mem_erase.mpr ⟨?_, h1⟩, h2, (hpos _ ?_).trans h3⟩
      · intro heq
        rw [heq] at h2
        exact hrr h2
      · intro heq
        rw [heq] at h2
        exact hrr (hbdeg.symm.trans h2)

/-- The vertices and degrees are those of the live vertices alone. -/
theorem Placed.congr (h : Placed n live deg s) {deg' : ℕ → ℕ} (hdeg : ∀ x ∈ live, deg' x = deg x) :
    Placed n live deg' s := by
  constructor
  case size_d => exact h.size_d
  case size_degs => exact h.size_degs
  case size_positions => exact h.size_positions
  case lt =>
    intro x hx
    rw [hdeg x hx]
    exact h.lt x hx
  case degs_eq =>
    intro x hx
    rw [hdeg x hx]
    exact h.degs_eq x hx
  case slot =>
    intro x hx
    rw [hdeg x hx]
    exact h.slot x hx
  case entry =>
    intro r p hp
    obtain ⟨h1, h2, h3⟩ := h.entry r p hp
    exact ⟨h1, (hdeg _ h1).trans h2, h3⟩

theorem Placed.lower_eq (h : Placed n live deg s) {x : ℕ} (hx : x ∈ live)
    (hused : s.used.get x = false) : s.lower x = (s.unlink x).place x (deg x - 1) := by
  have hdegs : (s.unlink x).degs.get x = deg x := h.degs_eq x hx
  unfold Buckets.lower
  rw [if_neg (by rw [hused]; decide), ← hdegs]

theorem Placed.lowerChecked_eq (h : Placed n live deg s) {x : ℕ} (hx : x ∈ live)
    (hpos : 0 < deg x) (hsize : x < s.used.size) (hused : s.used.get x = false) :
    s.lowerChecked x = some (s.lower x) := by
  obtain ⟨hxn, hrn⟩ := h.lt x hx
  have hunlink := h.unlink hx
  have hdegs : (s.unlink x).degs.get x = deg x := h.degs_eq x hx
  unfold Buckets.lowerChecked
  rw [Vec.read_bind hsize, hused, h.unlinkChecked_eq hx]
  show ((s.unlink x).degs.read x >>= _) = _
  rw [Vec.read_bind (hunlink.size_degs ▸ hxn), hdegs, (Option.guard_eq_some' ()).mpr hpos,
    h.lower_eq hx hused]
  exact hunlink.placeChecked_eq hxn (by omega)

/-- A neighbour of the vertex taken moves one bucket down. -/
theorem Placed.lower (h : Placed n live deg s) {x : ℕ} (hx : x ∈ live) (hpos : 0 < deg x)
    (hused : s.used.get x = false) :
    Placed n live (Function.update deg x (deg x - 1)) (s.lower x) := by
  have hlt := h.lt x hx
  have hplace := (h.unlink hx).place (r := deg x - 1) (Finset.notMem_erase x live) hlt.1 (by omega)
  rw [Finset.insert_erase hx] at hplace
  rw [h.lower_eq hx hused]
  exact hplace

theorem lower_frame (s : Buckets) (x : ℕ) : (s.lower x).perm = s.perm ∧
    (s.lower x).used = s.used := by
  unfold Buckets.lower
  split_ifs <;> exact ⟨rfl, rfl⟩

/-- The loop over the neighbours of the vertex taken. -/
theorem Placed.foldl_lower (h : Placed n live deg s) {l : List ℕ} (hl : l.Nodup)
    (hsize : ∀ x ∈ l, x < s.used.size)
    (hused : ∀ x ∈ l, s.used.get x = false ↔ x ∈ live) (hpos : ∀ x ∈ l, x ∈ live → 0 < deg x) :
    Placed n live (fun x => if x ∈ l then deg x - 1 else deg x) (l.foldl Buckets.lower s) ∧
      (l.foldl Buckets.lower s).perm = s.perm ∧ (l.foldl Buckets.lower s).used = s.used ∧
        l.foldlM Buckets.lowerChecked s = some (l.foldl Buckets.lower s) := by
  induction l generalizing s deg with
  | nil => exact ⟨h.congr fun x _ => if_neg List.not_mem_nil, rfl, rfl, rfl⟩
  | cons x l ih =>
    obtain ⟨hxl, hl⟩ := List.nodup_cons.mp hl
    obtain ⟨hperm, hu⟩ := lower_frame s x
    have hused' : ∀ y ∈ l, (s.lower x).used.get y = false ↔ y ∈ live := fun y hy => by
      rw [hu]
      exact hused y (List.mem_cons_of_mem _ hy)
    have hsize' : ∀ y ∈ l, y < (s.lower x).used.size := fun y hy => by
      rw [hu]
      exact hsize y (List.mem_cons_of_mem _ hy)
    have hxsize := hsize x List.mem_cons_self
    rw [List.foldl_cons, List.foldlM_cons]
    by_cases hx : x ∈ live
    · have hxused := (hused x List.mem_cons_self).mpr hx
      have hxpos := hpos x List.mem_cons_self hx
      have hstep := h.lower hx hxpos hxused
      have hother : ∀ y ∈ l, Function.update deg x (deg x - 1) y = deg y := fun y hy =>
        Function.update_of_ne (fun hyx : y = x => hxl (by rw [← hyx]; exact hy)) _ _
      obtain ⟨h1, h2, h3, h4⟩ := ih hstep hl hsize' hused' fun y hy hyl => by
        rw [hother y hy]
        exact hpos y (List.mem_cons_of_mem _ hy) hyl
      rw [h.lowerChecked_eq hx hxpos hxsize hxused, Option.bind_eq_bind, Option.bind_some]
      refine ⟨h1.congr fun y _ => ?_, h2.trans hperm, h3.trans hu, h4⟩
      by_cases hyl : y ∈ l
      · rw [if_pos (List.mem_cons_of_mem _ hyl), if_pos hyl, hother y hyl]
      · rw [if_neg hyl]
        by_cases hyx : y = x
        · rw [hyx, Function.update_self, if_pos List.mem_cons_self]
        · rw [Function.update_of_ne hyx,
            if_neg fun hmem => hyl ((List.mem_cons.mp hmem).resolve_left hyx)]
    · -- a vertex that has been taken is passed over
      have htaken : s.used.get x = true := by
        by_contra hno
        exact hx ((hused x List.mem_cons_self).mp (Bool.not_eq_true _ ▸ hno))
      have hskip : s.lower x = s := by
        unfold Buckets.lower
        rw [if_pos htaken]
      have hskipChecked : s.lowerChecked x = some s := by
        unfold Buckets.lowerChecked
        rw [Vec.read_bind hxsize, if_pos htaken]
        rfl
      rw [hskip] at hused' hsize' ⊢
      rw [hskipChecked, Option.bind_eq_bind, Option.bind_some]
      obtain ⟨h1, h2, h3, h4⟩ := ih h hl hsize' hused' fun y hy hyl =>
        hpos y (List.mem_cons_of_mem _ hy) hyl
      refine ⟨h1.congr fun y hy => ?_, h2, h3, h4⟩
      have hyx : y ≠ x := fun hyx => hx (hyx ▸ hy)
      simp only [List.mem_cons, hyx, false_or]

/-- The last vertex of a bucket is taken. -/
theorem Placed.takeBack (h : Placed n live deg s) {j : ℕ} (hj : 0 < (s.d.get j).size) :
    (s.d.get j).back ∈ live ∧ deg (s.d.get j).back = j ∧
      Placed n (live.erase (s.d.get j).back) deg (s.takeBack j) := by
  set row := s.d.get j with hrow
  have hlast : row.size - 1 < row.size := by omega
  obtain ⟨hvl, hvdeg, hvpos⟩ := h.entry j (row.size - 1) hlast
  have hjn : j < n := hvdeg ▸ (h.lt _ hvl).2
  have hd : ∀ r, (s.takeBack j).d.get r = if j = r then row.pop else s.d.get r := by
    intro r
    show (s.d.set j row.pop).get r = _
    rw [Vec.get_set, h.size_d]
    simp [hjn]
  refine ⟨hvl, hvdeg, ?_⟩
  constructor
  case size_d => exact (Vec.size_set _ _ _).trans h.size_d
  case size_degs => exact h.size_degs
  case size_positions => exact h.size_positions
  case lt => exact fun x hx => h.lt x (Finset.mem_of_mem_erase hx)
  case degs_eq => exact fun x hx => h.degs_eq x (Finset.mem_of_mem_erase hx)
  case slot =>
    intro x hx
    obtain ⟨hxv, hxl⟩ := Finset.mem_erase.mp hx
    obtain ⟨h1, h2⟩ := h.slot x hxl
    show s.positions.get x < ((s.takeBack j).d.get (deg x)).size ∧
      ((s.takeBack j).d.get (deg x)).get (s.positions.get x) = x
    rw [hd]
    split_ifs with hxj
    · -- the places before the last one keep their entries
      rw [← hxj] at h1 h2
      have hne : s.positions.get x ≠ row.size - 1 := by
        intro heq
        apply hxv
        rw [← h2, heq]
        rfl
      have h1 : s.positions.get x < row.size := h1
      rw [Array.size_pop, Vec.get_pop row (by omega)]
      exact ⟨by omega, h2⟩
    · exact ⟨h1, h2⟩
  case entry =>
    intro r p hp
    show (((s.takeBack j).d.get r).get p) ∈ _ ∧ deg (((s.takeBack j).d.get r).get p) = r ∧
      s.positions.get (((s.takeBack j).d.get r).get p) = p
    rw [hd] at hp ⊢
    split_ifs at hp ⊢ with hr
    · subst hr
      rw [Array.size_pop] at hp
      rw [Vec.get_pop row (by omega)]
      obtain ⟨h1, h2, h3⟩ := h.entry j p (show p < row.size by omega)
      refine ⟨Finset.mem_erase.mpr ⟨fun heq => ?_, h1⟩, h2, h3⟩
      have h3 : s.positions.get (row.get p) = p := h3
      have hvpos : s.positions.get row.back = row.size - 1 := hvpos
      rw [heq] at h3
      omega
    · obtain ⟨h1, h2, h3⟩ := h.entry r p hp
      refine ⟨Finset.mem_erase.mpr ⟨fun heq => ?_, h1⟩, h2, h3⟩
      rw [heq] at h2
      exact hr (hvdeg.symm.trans h2)

theorem Placed.takeBackChecked_eq (h : Placed n live deg s) (hused : s.used.size = n) {j : ℕ}
    (hj : 0 < (s.d.get j).size) : s.takeBackChecked j = some (s.takeBack j) := by
  obtain ⟨hvl, hvdeg, -⟩ := h.takeBack hj
  obtain ⟨hvn, hdegn⟩ := h.lt _ hvl
  have hlast : (s.d.get j).size - 1 < (s.d.get j).size := by omega
  have hjn : j < s.d.size := by
    rw [h.size_d]
    omega
  unfold Buckets.takeBackChecked
  rw [Vec.read_bind hjn, Vec.read_bind hlast, Vec.write_bind hjn]
  change (s.used.write (s.d.get j).back true >>= _) = _
  rw [Vec.write_bind (hused ▸ hvn)]
  rfl

theorem placed_empty (n : ℕ) (deg : ℕ → ℕ) : Placed n ∅ deg
    { d := Vec.zeros n, degs := Vec.zeros n, positions := Vec.zeros n, used := Vec.zeros n } := by
  refine ⟨Vec.size_zeros n, Vec.size_zeros n, Vec.size_zeros n, by simp, by simp, by simp, ?_⟩
  intro r p hp
  have hrow : (Vec.zeros n : Vec (Vec ℕ)).get r = #[] := Vec.get_zeros n r
  have hp : p < ((Vec.zeros n : Vec (Vec ℕ)).get r).size := hp
  rw [hrow] at hp
  exact absurd hp (Nat.not_lt_zero p)

theorem foldlM_concat {σ α : Type} {f : σ → α → Option σ} {s t u : σ} {l : List α} {x : α}
    (hl : l.foldlM f s = some t) (hx : f t x = some u) : (l ++ [x]).foldlM f s = some u := by
  rw [List.foldlM_append, hl]
  simpa using hx

variable (g : Graph)

/-- The first loop puts every vertex in the bucket of its degree. -/
theorem placed_init : Placed g.N (Finset.range g.N) g.degree (init g) ∧ (init g).perm = [] ∧
    (init g).used = Vec.zeros g.N ∧ initChecked g = some (init g) := by
  have hdeg : ∀ i < g.N, g.degree i < g.N := by
    intro i hi
    have hsub : (g.neighs i).toFinset ⊆ (Finset.range g.N).erase i := by
      intro x hx
      have hx : g.toSimpleGraph.Adj i x := List.mem_toFinset.mp hx
      exact Finset.mem_erase.mpr ⟨hx.ne', Finset.mem_range.mpr (g.lt_of_adj hx).2⟩
    have hcard := Finset.card_le_card hsub
    rw [List.toFinset_card_of_nodup (g.neighs_nodup i),
      Finset.card_erase_of_mem (Finset.mem_range.mpr hi), Finset.card_range] at hcard
    unfold Graph.degree
    omega
  set s₀ : Buckets := ⟨[], Vec.zeros g.N, Vec.zeros g.N, Vec.zeros g.N, Vec.zeros g.N⟩ with hs₀
  have hloop : ∀ m ≤ g.N, ∀ s, s = (List.range m).foldl (fun s i => s.place i (g.degree i)) s₀ →
      Placed g.N (Finset.range m) g.degree s ∧ s.perm = [] ∧ s.used = Vec.zeros g.N ∧
        (List.range m).foldlM (fun s i => s.placeChecked i (g.degree i)) s₀ = some s := by
    intro m
    induction m with
    | zero =>
      rintro - s rfl
      exact ⟨placed_empty g.N g.degree, rfl, rfl, rfl⟩
    | succ m ih =>
      rintro hm s rfl
      obtain ⟨h1, h2, h3, h4⟩ := ih (by omega) _ rfl
      rw [List.range_succ, List.foldl_append, List.foldl_cons, List.foldl_nil,
        foldlM_concat h4 (h1.placeChecked_eq (by omega) (hdeg m (by omega)))]
      have hplace := h1.place (x := m) (r := g.degree m) (by simp) (by omega) (hdeg m (by omega))
      rw [← Finset.range_add_one, Function.update_eq_self] at hplace
      exact ⟨hplace, h2, h3, rfl⟩
  exact hloop g.N le_rfl _ rfl

/-- The loop that looks for a bucket that is not empty. -/
theorem findBucket_spec {fuel j r : ℕ} (hjr : j ≤ r) (hr : r < j + fuel)
    (hne : 0 < (s.d.get r).size) :
    j ≤ s.findBucket fuel j ∧ s.findBucket fuel j ≤ r ∧
      0 < (s.d.get (s.findBucket fuel j)).size := by
  induction fuel generalizing j with
  | zero => omega
  | succ fuel ih =>
    unfold Buckets.findBucket
    by_cases hempty : (s.d.get j).isEmpty
    · have hj : j ≠ r := by
        rintro rfl
        rw [Array.isEmpty_iff_size_eq_zero] at hempty
        omega
      rw [if_pos hempty]
      obtain ⟨h1, h2, h3⟩ := ih (j := j + 1) (by omega) (by omega)
      exact ⟨by omega, h2, h3⟩
    · rw [if_neg hempty]
      rw [Array.isEmpty_iff_size_eq_zero] at hempty
      exact ⟨le_rfl, hjr, by omega⟩

theorem findBucketChecked_eq {fuel j r : ℕ} (hjr : j ≤ r) (hr : r < j + fuel)
    (hne : 0 < (s.d.get r).size) : s.findBucketChecked j = some (s.findBucket fuel j) := by
  -- a bucket that is not empty is not outside the vector
  have hrs : r < s.d.size := by
    by_contra hout
    rw [Vec.get_of_size_le (by omega)] at hne
    exact Nat.lt_irrefl 0 hne
  induction fuel generalizing j with
  | zero => omega
  | succ fuel ih =>
    unfold Buckets.findBucket Buckets.findBucketChecked
    rw [if_pos (by omega)]
    by_cases hempty : (s.d.get j).isEmpty
    · have hj : j ≠ r := by
        rintro rfl
        rw [Array.isEmpty_iff_size_eq_zero] at hempty
        omega
      rw [if_pos hempty, if_pos hempty]
      exact ih (by omega) (by omega)
    · rw [if_neg hempty, if_neg hempty]

/-- The vertices that have not been taken. -/
def rest (s : Buckets) : Finset ℕ := Finset.range g.N \ s.perm.toFinset

/-- The number of neighbours in a set. -/
def degIn (S : Finset ℕ) (x : ℕ) : ℕ := (S.filter (g.toSimpleGraph.Adj x)).card

/-- What holds between two rounds. -/
structure Order (s : Buckets) (j : ℕ) : Prop where
  nodup : s.perm.Nodup
  lt : ∀ x ∈ s.perm, x < g.N
  size_used : s.used.size = g.N
  used_eq : ∀ x < g.N, s.used.get x = decide (x ∈ s.perm)
  placed : Placed g.N (rest g s) (degIn g (rest g s)) s
  /-- No remaining degree is below `j`. -/
  le_degIn : ∀ x ∈ rest g s, j ≤ degIn g (rest g s) x

variable {g}

theorem order_init : Order g (init g) 0 := by
  obtain ⟨hplaced, hperm, hused, -⟩ := placed_init g
  have hrest : rest g (init g) = Finset.range g.N := by
    unfold rest
    rw [hperm]
    simp
  constructor
  case nodup =>
    rw [hperm]
    exact List.nodup_nil
  case lt =>
    rw [hperm]
    exact fun x hx => absurd hx List.not_mem_nil
  case size_used =>
    rw [hused]
    exact Vec.size_zeros _
  case used_eq =>
    intro x _
    rw [hused, hperm, Vec.get_zeros]
    rfl
  case le_degIn => exact fun _ _ => Nat.zero_le _
  case placed =>
    rw [hrest]
    refine hplaced.congr fun x _ => ?_
    unfold degIn Graph.degree
    rw [← List.toFinset_card_of_nodup (g.neighs_nodup x)]
    congr 1
    ext y
    rw [Finset.mem_filter, Finset.mem_range, List.mem_toFinset]
    exact and_iff_right_of_imp fun hxy => (g.lt_of_adj hxy).2

theorem mem_rest {x : ℕ} : x ∈ rest g s ↔ x < g.N ∧ x ∉ s.perm := by
  unfold rest
  rw [Finset.mem_sdiff, Finset.mem_range, List.mem_toFinset]

/-- A vertex that is taken lowers the degrees of its neighbours by one. -/
theorem degIn_erase {S : Finset ℕ} {v : ℕ} (hv : v ∈ S) (x : ℕ) :
    degIn g (S.erase v) x = if x ∈ g.neighs v then degIn g S x - 1 else degIn g S x := by
  unfold degIn
  rw [Finset.filter_erase]
  by_cases hx : x ∈ g.neighs v
  · have hadj : g.toSimpleGraph.Adj v x := hx
    rw [if_pos hx, Finset.card_erase_of_mem (Finset.mem_filter.mpr ⟨hv, hadj.symm⟩)]
  · rw [if_neg hx, Finset.erase_eq_of_notMem]
    intro hmem
    have hadj : g.toSimpleGraph.Adj x v := (Finset.mem_filter.mp hmem).2
    exact hx hadj.symm

theorem Order.rest_nonempty {j : ℕ} (h : Order g s j) (hlen : s.perm.length < g.N) :
    (rest g s).Nonempty := by
  rw [← Finset.card_pos]
  unfold rest
  have hle := Finset.le_card_sdiff s.perm.toFinset (Finset.range g.N)
  rw [List.toFinset_card_of_nodup h.nodup, Finset.card_range] at hle
  omega

/-- The bucket that is found is the one of the smallest remaining degree. -/
theorem Order.findBucket {j x : ℕ} (h : Order g s j) (hx : x ∈ rest g s) :
    s.findBucket s.d.size j ≤ degIn g (rest g s) x ∧
      0 < (s.d.get (s.findBucket s.d.size j)).size ∧
        s.findBucketChecked j = some (s.findBucket s.d.size j) := by
  have hslot := (h.placed.slot x hx).1
  have hlt := (h.placed.lt x hx).2
  have hle := h.le_degIn x hx
  have hsize := h.placed.size_d
  have hne := (Nat.zero_le _).trans_lt hslot
  obtain ⟨-, h2, h3⟩ := @findBucket_spec s s.d.size j _ hle (by omega) hne
  exact ⟨h2, h3, findBucketChecked_eq hle (by omega) hne⟩

/-- **A round takes a vertex of minimum remaining degree.** -/
theorem Order.round {j : ℕ} (h : Order g s j) (hne : (rest g s).Nonempty) :
    ∃ v ∈ rest g s, (∀ x ∈ rest g s, degIn g (rest g s) v ≤ degIn g (rest g s) x) ∧
      (Buckets.round g (s, j)).1.perm = s.perm ++ [v] ∧
        Order g (Buckets.round g (s, j)).1 (Buckets.round g (s, j)).2 ∧
          roundChecked g (s, j) = some (Buckets.round g (s, j)) := by
  set live := rest g s with hlive
  have hmem : ∀ x, x ∈ live ↔ x < g.N ∧ x ∉ s.perm := fun x => mem_rest
  have hfind : ∀ x ∈ live, s.findBucket s.d.size j ≤ degIn g live x ∧
      0 < (s.d.get (s.findBucket s.d.size j)).size ∧
        s.findBucketChecked j = some (s.findBucket s.d.size j) := fun x hx => h.findBucket hx
  set j' := s.findBucket s.d.size j with hj'
  obtain ⟨x₀, hx₀⟩ := hne
  obtain ⟨-, hbucket, hfindChecked⟩ := hfind x₀ hx₀
  obtain ⟨hvl, hvdeg, htake⟩ := h.placed.takeBack hbucket
  have htakeChecked := h.placed.takeBackChecked_eq h.size_used hbucket
  set v := (s.d.get j').back with hv
  have hvN := (hmem v).mp hvl
  have hused : ∀ x ∈ g.neighs v, (s.takeBack j').used.get x = false ↔ x ∈ live.erase v := by
    intro x hx
    have hadj : g.toSimpleGraph.Adj v x := hx
    show (s.used.set v true).get x = false ↔ _
    rw [Vec.get_set_of_ne _ hadj.ne, h.used_eq x (g.lt_of_adj hadj).2, decide_eq_false_iff_not,
      Finset.mem_erase, hmem, and_iff_right hadj.ne', and_iff_right (g.lt_of_adj hadj).2]
  have hpos : ∀ x ∈ g.neighs v, x ∈ live.erase v → 0 < degIn g live x := by
    intro x hx _
    have hadj : g.toSimpleGraph.Adj v x := hx
    exact Finset.card_pos.mpr ⟨v, Finset.mem_filter.mpr ⟨hvl, hadj.symm⟩⟩
  have hsize : ∀ x ∈ g.neighs v, x < (s.takeBack j').used.size := by
    intro x hx
    show x < (s.used.set v true).size
    rw [Vec.size_set, h.size_used]
    exact g.lt_N v x hx
  obtain ⟨hplaced, hperm, hused', hchecked⟩ :=
    htake.foldl_lower (g.neighs_nodup v) hsize hused hpos
  have hround : Buckets.round g (s, j)
      = ((g.neighs v).foldl Buckets.lower (s.takeBack j'), if j' > 0 then j' - 1 else j') := rfl
  have hperm' : (Buckets.round g (s, j)).1.perm = s.perm ++ [v] := hperm
  have hrest : rest g (Buckets.round g (s, j)).1 = live.erase v := by
    ext x
    rw [mem_rest, hperm', Finset.mem_erase, hmem, List.mem_append, List.mem_singleton]
    tauto
  have hdeg : ∀ x, degIn g (live.erase v) x
      = if x ∈ g.neighs v then degIn g live x - 1 else degIn g live x := degIn_erase hvl
  have hroundChecked : roundChecked g (s, j) = some (Buckets.round g (s, j)) := by
    have hj'n : j' < s.d.size := by
      rw [h.placed.size_d, ← hvdeg]
      exact (h.placed.lt v hvl).2
    unfold roundChecked
    rw [hfindChecked]
    change (s.d.read j' >>= _) = _
    rw [Vec.read_bind hj'n, Vec.read_bind (by omega)]
    change (s.takeBackChecked j' >>= fun t => (g.neighs v).foldlM lowerChecked t >>= _) = _
    rw [htakeChecked]
    change ((g.neighs v).foldlM lowerChecked (s.takeBack j') >>= _) = _
    rw [hchecked, hround]
    rfl
  refine ⟨v, hvl, fun x hx => hvdeg.trans_le (hfind x hx).1, hperm', ?_, hroundChecked⟩
  rw [hround] at hperm' hrest ⊢
  constructor
  case nodup =>
    rw [hperm']
    refine List.nodup_append.mpr ⟨h.nodup, List.nodup_singleton v, fun x hx y hy hxy => ?_⟩
    rw [List.mem_singleton.mp hy] at hxy
    exact hvN.2 (hxy ▸ hx)
  case lt =>
    intro x hx
    rw [hperm'] at hx
    rcases List.mem_append.mp hx with hx | hx
    · exact h.lt x hx
    · rw [List.mem_singleton.mp hx]
      exact hvN.1
  case size_used =>
    show ((g.neighs v).foldl Buckets.lower (s.takeBack j')).used.size = _
    rw [hused']
    exact (Vec.size_set _ _ _).trans h.size_used
  case used_eq =>
    intro x hx
    rw [hperm']
    show ((g.neighs v).foldl Buckets.lower (s.takeBack j')).used.get x = _
    rw [hused']
    show (s.used.set v true).get x = _
    rw [Vec.get_set, h.size_used, h.used_eq x hx]
    by_cases hxv : v = x
    · simp [hxv, hx]
    · simp [hxv, Ne.symm hxv]
  case placed =>
    rw [hrest]
    exact hplaced.congr fun x _ => hdeg x
  case le_degIn =>
    intro x hx
    rw [hrest] at hx ⊢
    have hle := (hfind x (Finset.mem_of_mem_erase hx)).1
    rw [hdeg]
    show (if j' > 0 then j' - 1 else j') ≤ _
    split_ifs <;> omega

/-- The main loop takes every vertex. -/
theorem order_rounds (m : ℕ) (hm : m ≤ g.N) (s : Buckets × ℕ)
    (hs : s = (List.range m).foldl (fun s _ => Buckets.round g s) (init g, 0)) :
    Order g s.1 s.2 ∧ s.1.perm.length = m ∧
      (List.range m).foldlM (fun s _ => roundChecked g s) (init g, 0) = some s := by
  induction m generalizing s with
  | zero =>
    subst hs
    exact ⟨order_init, congrArg List.length (placed_init g).2.1, rfl⟩
  | succ m ih =>
    obtain ⟨horder, hlen, hchecked⟩ := ih (by omega) _ rfl
    rw [List.range_succ, List.foldl_append, List.foldl_cons, List.foldl_nil] at hs
    set t := (List.range m).foldl (fun s _ => Buckets.round g s) (init g, 0) with ht
    obtain ⟨v, -, -, hperm, hround, hroundChecked⟩ :=
      horder.round (horder.rest_nonempty (by omega))
    subst hs
    refine ⟨hround, ?_, ?_⟩
    · show (Buckets.round g (t.1, t.2)).1.perm.length = _
      rw [hperm, List.length_append, hlen]
      rfl
    · rw [List.range_succ]
      exact foldlM_concat hchecked hroundChecked

end Buckets

/-- No access of `DegeneracyOrder` is out of range, and its loops end. -/
theorem degeneracyOrderChecked_eq (g : Graph) :
    degeneracyOrderChecked g = some (degeneracyOrder g) := by
  obtain ⟨-, -, hrounds⟩ := Buckets.order_rounds (g := g) g.N le_rfl _ rfl
  unfold degeneracyOrderChecked
  rw [(Buckets.placed_init g).2.2.2]
  change ((List.range g.N).foldlM (fun s _ => Buckets.roundChecked g s) (Buckets.init g, 0)
    >>= _) = _
  rw [hrounds]
  rfl

/-- **The degeneracy order is a permutation of the vertices.** -/
theorem degeneracyOrder_perm (g : Graph) : (degeneracyOrder g).Perm (List.range g.N) := by
  obtain ⟨horder, hlen, -⟩ := Buckets.order_rounds (g := g) g.N le_rfl _ rfl
  have hlen : (degeneracyOrder g).length = g.N := hlen
  have hnodup : (degeneracyOrder g).Nodup := horder.nodup
  refine List.perm_of_nodup_nodup_toFinset_eq hnodup List.nodup_range ?_
  refine Finset.eq_of_subset_of_card_le (fun x hx => ?_) ?_
  · simpa using horder.lt x (List.mem_toFinset.mp hx)
  · rw [List.toFinset_card_of_nodup hnodup, List.toFinset_card_of_nodup List.nodup_range,
      List.length_range, hlen]

end ParallelEnum
