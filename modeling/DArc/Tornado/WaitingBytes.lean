import DArc.Tornado.ArithCoder

/-!
# Bytes that wait for a carry

The arithmetic coder counts the bytes that wait for a carry in 32 bits.  At most three bytes more wait after an item.

### Main results

* `helpFits_of_length`: few items have few bytes that wait.
-/

namespace DArc.Tornado

namespace TRangeCoder

variable {rc : TRangeCoder}

/-- One more byte may wait. -/
lemma help_shiftLow_le (rc : TRangeCoder) : rc.shiftLow.help ≤ rc.help + 1 := by
  unfold shiftLow
  split
  · exact Nat.zero_le _
  · exact Nat.mod_le _ _

/-- The range is large enough after three bytes. -/
lemma widenings_le (range : ℕ) : widenings range ≤ 3 := by
  have hlarge {r : ℕ} (h : 2 ^ 24 ≤ r) : widenings r = 0 := by rw [widenings, if_neg (by omega)]
  have hstep {r k : ℕ} (h : widenings (r * 2 ^ 8) ≤ k) : widenings r ≤ k + 1 := by
    rw [widenings]
    split
    · exact Nat.add_le_add_right h 1
    · exact Nat.zero_le _
  rcases Nat.eq_zero_or_pos range with rfl | hpos
  · rw [widenings, if_neg (by decide)]
    exact Nat.zero_le _
  · exact hstep (hstep (hstep (hlarge (by omega)).le))

/-- At most as many bytes wait in the loop of `Encode` as it has turns. -/
lemma help_le_widenings (rc : TRangeCoder) :
    (∀ rc' ∈ rc.shifted, rc'.help ≤ rc.help + widenings rc.range) ∧
      rc.renormalize.help ≤ rc.help + widenings rc.range := by
  induction rc using shifted.induct with
  | case1 rc hrange ih =>
    obtain ⟨hshifted, hend⟩ := ih
    have hone := help_shiftLow_le rc.widened
    have hwide : rc.widened.help = rc.help := rfl
    have hwidenings : widenings rc.range = widenings rc.widened.shiftLow.range + 1 := by
      rw [widenings, if_pos hrange, range_shiftLow]
      rfl
    rw [shifted, if_pos hrange, renormalize, if_pos hrange]
    refine ⟨fun rc' hmem => ?_, by omega⟩
    rcases List.mem_cons.mp hmem with rfl | hmem
    · omega
    · have hle := hshifted rc' hmem
      omega
  | case2 rc hrange =>
    rw [shifted, if_neg hrange, renormalize, if_neg hrange]
    exact ⟨fun rc' hmem => absurd hmem List.not_mem_nil, Nat.le_add_right _ _⟩

/-- At most as many bytes wait as `ShiftLow` is called. -/
lemma help_iterate_le (rc : TRangeCoder) (k : ℕ) : (shiftLow^[k] rc).help ≤ rc.help + k := by
  induction k with
  | zero => exact le_rfl
  | succ k ih =>
    have hone := help_shiftLow_le (shiftLow^[k] rc)
    rw [Function.iterate_succ_apply']
    omega

end TRangeCoder

namespace ArithCoder

variable {n : ℕ} {item : ArithItem} {items : List ArithItem}

/-- Three bytes more may wait after an item. -/
lemma help_le_put (ac : ArithCoder) (hvalid : item.Valid n) :
    (∀ rc ∈ ac.shifted item, rc.help ≤ ac.rc.help + 3) ∧ (ac.put item).rc.help ≤ ac.rc.help + 3 := by
  obtain ⟨hshifted, hend⟩ :=
    TRangeCoder.help_le_widenings (ac.rc.narrowed (item.slot ac.c).1 (item.slot ac.c).2.1 (item.slot ac.c).2.2)
  have hthree := TRangeCoder.widenings_le
    (ac.rc.narrowed (item.slot ac.c).1 (item.slot ac.c).2.1 (item.slot ac.c).2.2).range
  have hhelp : (ac.rc.narrowed (item.slot ac.c).1 (item.slot ac.c).2.1 (item.slot ac.c).2.2).help = ac.rc.help := rfl
  rw [put_eq hvalid]
  refine ⟨fun rc hmem => (hshifted rc hmem).trans (by omega), ?_⟩
  change (TRangeCoder.renormalize _).help ≤ _
  omega

/-- Three bytes for each item may wait. -/
lemma help_le_foldl (ac : ArithCoder) (hvalid : ∀ item ∈ items, item.Valid n) :
    (∀ rc ∈ shifts items ac, rc.help ≤ ac.rc.help + 3 * items.length) ∧
      (items.foldl put ac).rc.help ≤ ac.rc.help + 3 * items.length := by
  induction items generalizing ac with
  | nil => exact ⟨fun rc hmem => absurd hmem List.not_mem_nil, le_rfl⟩
  | cons item items ih =>
    obtain ⟨hshifted, hput⟩ := help_le_put ac (hvalid item List.mem_cons_self)
    obtain ⟨hshifts, hend⟩ := ih (ac.put item) fun item hmem => hvalid item (List.mem_cons_of_mem _ hmem)
    rw [shifts, List.foldl_cons, List.length_cons]
    refine ⟨fun rc hmem => ?_, by omega⟩
    rcases List.mem_append.mp hmem with hmem | hmem
    · have hle := hshifted rc hmem
      omega
    · have hle := hshifts rc hmem
      omega

end ArithCoder

/-- **Few items** have few bytes that wait for a carry. -/
theorem helpFits_of_length {n : ℕ} {items : List ArithItem} (hvalid : ∀ item ∈ items, item.Valid n)
    (hlength : 3 * items.length + 6 < 2 ^ 32) : HelpFits n items := by
  obtain ⟨hshifts, hend⟩ := ArithCoder.help_le_foldl (.new n) hvalid
  have hzero : (ArithCoder.new n).rc.help = 0 := rfl
  intro rc hmem _
  rcases List.mem_append.mp hmem with hmem | hmem
  · have hle := hshifts rc hmem
    omega
  · obtain ⟨k, hk, rfl⟩ := List.mem_map.mp hmem
    have hle := TRangeCoder.help_iterate_le (items.foldl ArithCoder.put (.new n)).rc k
    have hfive := List.mem_range.mp hk
    omega

end DArc.Tornado
