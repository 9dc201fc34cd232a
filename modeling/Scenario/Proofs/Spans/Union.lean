import Mathlib.Order.Bounds.Basic
import Mathlib.Order.Interval.Set.Basic
import Scenario.WordSpan

/-!
# Unions of spans

Spans are ordered by containment: what counts are the positions from the beginning of a span to its
end, so that an empty span has one position. In this order the union of two spans is their least
upper bound, and there is one if and only if both spans have an end. What is known of least upper
bounds follows for unions.

In 32-bit words a union fails exactly if an end is no word. The length of a union, which is taken
from its end, is always there.
-/

namespace Scenario
namespace Span

/-- The positions from the beginning of the span to its end. -/
def positions (s : Span) : Set Nat := Set.Icc s.base (s.base + s.len)

/-- A span lies in another if all its positions do. -/
instance : LE Span := ⟨fun s t => s.positions ⊆ t.positions⟩

variable {s t u v : Span}

theorem le_iff : s ≤ t ↔ t.base ≤ s.base ∧ s.base + s.len ≤ t.base + t.len :=
  Set.Icc_subset_Icc_iff (Nat.le_add_right _ _)

instance (s t : Span) : Decidable (s ≤ t) := decidable_of_iff _ le_iff.symm

instance : PartialOrder Span where
  le_refl s := Set.Subset.refl s.positions
  le_trans _ _ _ := Set.Subset.trans
  le_antisymm s t hst hts := by
    obtain ⟨sBase, sLen⟩ := s
    obtain ⟨tBase, tLen⟩ := t
    have hst := le_iff.1 hst
    have hts := le_iff.1 hts
    dsimp only at hst hts
    simp only [mk.injEq]
    omega

/-- A span that has an end has every span in it end as well. -/
theorem Fits.of_le (h : t.Fits) (hle : s ≤ t) : s.Fits := Nat.le_trans (le_iff.1 hle).2 h

theorem union_of_not_fits (h : ¬ s.Fits ∨ ¬ t.Fits) : s.union t = .error .spanEnd := by
  by_cases hs : s.Fits
  · simp [union, stop_of_fits hs, stop_of_not_fits (h.resolve_left (not_not_intro hs)), bind,
      Except.bind]
  · simp [union, stop_of_not_fits hs, bind, Except.bind]

/-- A union fails exactly if one of the spans has no end. -/
theorem union_eq_error_iff {f : Fault} :
    s.union t = .error f ↔ f = .spanEnd ∧ (¬ s.Fits ∨ ¬ t.Fits) := by
  by_cases h : ¬ s.Fits ∨ ¬ t.Fits
  · simp [union_of_not_fits h, h, eq_comm]
  · rw [not_or, not_not, not_not] at h
    simp [union_of_fits h.1 h.2, h.1, h.2]

/-- A union reaches from the first beginning to the last end of the two spans, both of which have
an end. -/
theorem union_eq_ok_iff : s.union t = .ok u ↔
    s.Fits ∧ t.Fits ∧ u.base = min s.base t.base ∧
      u.base + u.len = max (s.base + s.len) (t.base + t.len) := by
  obtain ⟨base, len⟩ := u
  by_cases h : s.Fits ∧ t.Fits
  · rw [union_of_fits h.1 h.2, Except.ok.injEq, mk.injEq]
    simp only [h.1, h.2, true_and]
    omega
  · rw [union_of_not_fits (not_and_or.1 h)]
    simp only [reduceCtorEq, false_iff]
    exact fun hall => h ⟨hall.1, hall.2.1⟩

theorem fits_union (hu : s.union t = .ok u) : u.Fits := by
  obtain ⟨hs, ht, -, hstop⟩ := union_eq_ok_iff.1 hu
  rw [Fits, hstop]
  exact Nat.max_le.2 ⟨hs, ht⟩

theorem union_le_iff (hu : s.union t = .ok u) : u ≤ v ↔ s ≤ v ∧ t ≤ v := by
  obtain ⟨-, -, hbase, hstop⟩ := union_eq_ok_iff.1 hu
  simp only [le_iff]
  omega

theorem isLUB_union (hu : s.union t = .ok u) : IsLUB {s, t} u := by
  rw [isLUB_iff_le_iff]
  intro v
  simp only [union_le_iff hu, mem_upperBounds, Set.forall_mem_insert, Set.mem_singleton_iff,
    forall_eq]

theorem le_union_left (hu : s.union t = .ok u) : s ≤ u := ((union_le_iff hu).1 (le_refl u)).1

theorem le_union_right (hu : s.union t = .ok u) : t ≤ u := ((union_le_iff hu).1 (le_refl u)).2

/-- No other span that both spans lie in is as short as their union. -/
theorem eq_union_of_len_le (hu : s.union t = .ok u) (hs : s ≤ v) (ht : t ≤ v)
    (hlen : v.len ≤ u.len) : v = u := by
  have hle := (union_le_iff hu).2 ⟨hs, ht⟩
  refine le_antisymm ?_ hle
  rw [le_iff] at hle ⊢
  omega

theorem union_comm (s t : Span) : s.union t = t.union s := by
  by_cases h : s.Fits ∧ t.Fits
  · obtain ⟨u, hu⟩ := exists_union h.1 h.2
    obtain ⟨v, hv⟩ := exists_union h.2 h.1
    have huv : u = v := by
      apply eq_of_forall_ge_iff
      intro bound
      rw [union_le_iff hu, union_le_iff hv, and_comm]
    rw [hu, hv, huv]
  · rw [union_of_not_fits (not_and_or.1 h), union_of_not_fits (not_and_or.1 h).symm]

/-- In whatever order spans are united, the union is the same, or fails in the same way. -/
theorem union_assoc (s t u : Span) :
    (do let left ← s.union t; left.union u) = (do let right ← t.union u; s.union right) := by
  by_cases hst : s.Fits ∧ t.Fits
  · obtain ⟨left, hleft⟩ := exists_union hst.1 hst.2
    by_cases hu : u.Fits
    · obtain ⟨right, hright⟩ := exists_union hst.2 hu
      obtain ⟨v, hv⟩ := exists_union (fits_union hleft) hu
      obtain ⟨w, hw⟩ := exists_union hst.1 (fits_union hright)
      have hvw : v = w := by
        apply eq_of_forall_ge_iff
        intro bound
        rw [union_le_iff hv, union_le_iff hleft, union_le_iff hw, union_le_iff hright, and_assoc]
      rw [hleft, hright]
      exact hv.trans (hvw ▸ hw.symm)
    · rw [hleft, union_of_not_fits (.inr hu)]
      exact union_of_not_fits (.inr hu)
  · rw [union_of_not_fits (not_and_or.1 hst)]
    by_cases htu : t.Fits ∧ u.Fits
    · obtain ⟨right, hright⟩ := exists_union htu.1 htu.2
      have hs : ¬ s.Fits := fun hs => hst ⟨hs, htu.1⟩
      rw [hright]
      exact (union_of_not_fits (.inl hs)).symm
    · rw [union_of_not_fits (not_and_or.1 htu)]
      rfl

theorem union_self (h : s.Fits) : s.union s = .ok s :=
  union_eq_ok_iff.2 ⟨h, h, (Nat.min_self _).symm, (Nat.max_self _).symm⟩

/-- A span is united with its end already. -/
theorem union_shrinkToEnd (h : s.Fits) : (do let stop ← s.shrinkToEnd; s.union stop) = .ok s := by
  have hstop : Fits ⟨s.base + s.len, 0⟩ := h
  rw [shrinkToEnd_of_fits h]
  refine union_eq_ok_iff.2 ⟨h, hstop, ?_, ?_⟩
  · exact (Nat.min_eq_left (Nat.le_add_right _ _)).symm
  · exact (Nat.max_self _).symm

/-- The union of smaller spans lies in that of the greater ones. -/
theorem exists_union_le {s' t' u' : Span} (hs : s ≤ s') (ht : t ≤ t')
    (hu : s'.union t' = .ok u') : ∃ u, s.union t = .ok u ∧ u ≤ u' := by
  obtain ⟨hsFits, htFits, -⟩ := union_eq_ok_iff.1 hu
  obtain ⟨u, h⟩ := exists_union (hsFits.of_le hs) (htFits.of_le ht)
  refine ⟨u, h, (union_le_iff h).2 ⟨?_, ?_⟩⟩
  · exact hs.trans (le_union_left hu)
  · exact ht.trans (le_union_right hu)

end Span

namespace WordSpan

theorem toNat_min (n k : UInt32) : (min n k).toNat = min n.toNat k.toNat := by
  change (if n ≤ k then n else k).toNat = _
  split
  · rename_i h
    rw [Nat.min_eq_left (UInt32.le_iff_toNat_le.1 h)]
  · rename_i h
    rw [UInt32.le_iff_toNat_le] at h
    rw [Nat.min_eq_right (Nat.le_of_not_le h)]

theorem toNat_max (n k : UInt32) : (max n k).toNat = max n.toNat k.toNat := by
  change (if n ≤ k then k else n).toNat = _
  split
  · rename_i h
    rw [Nat.max_eq_right (UInt32.le_iff_toNat_le.1 h)]
  · rename_i h
    rw [UInt32.le_iff_toNat_le] at h
    rw [Nat.max_eq_left (Nat.le_of_not_le h)]

variable {s t : WordSpan}

theorem fits_toSpan_iff : s.toSpan.Fits ↔ s.base.toNat + s.len.toNat < UInt32.size :=
  Nat.lt_succ_iff.symm

theorem stop_of_fits (h : s.toSpan.Fits) :
    ∃ n, s.stop = .ok n ∧ n.toNat = s.base.toNat + s.len.toNat := by
  rw [fits_toSpan_iff] at h
  refine ⟨s.base + s.len, if_pos h, ?_⟩
  rw [UInt32.toNat_add]
  exact Nat.mod_eq_of_lt h

theorem stop_of_not_fits (h : ¬ s.toSpan.Fits) : s.stop = .error (.sum s.base s.len) := by
  rw [fits_toSpan_iff] at h
  exact if_neg h

/-- Spans in words whose ends are words are united as spans are. -/
theorem exists_union_of_fits (hs : s.toSpan.Fits) (ht : t.toSpan.Fits) :
    ∃ u, s.union t = .ok u ∧ s.toSpan.union t.toSpan = .ok u.toSpan := by
  obtain ⟨n, hn, hnNat⟩ := stop_of_fits hs
  obtain ⟨k, hk, hkNat⟩ := stop_of_fits ht
  have hle : min s.base t.base ≤ max n k := by
    rw [UInt32.le_iff_toNat_le, toNat_min, toNat_max]
    omega
  refine ⟨⟨min s.base t.base, max n k - min s.base t.base⟩, ?_, ?_⟩
  · simp only [union, hn, hk, minus, if_pos hle, bind, Except.bind]
    rfl
  · have hbase := toNat_min s.base t.base
    have hstop := toNat_max n k
    have hlen := UInt32.toNat_sub_of_le _ _ hle
    rw [UInt32.le_iff_toNat_le] at hle
    rw [Span.union_eq_ok_iff]
    refine ⟨hs, ht, hbase, ?_⟩
    simp only [toSpan, hlen]
    omega

theorem exists_shrinkToEnd_of_fits (h : s.toSpan.Fits) :
    ∃ u, s.shrinkToEnd = .ok u ∧ s.toSpan.shrinkToEnd = .ok u.toSpan := by
  obtain ⟨n, hn, hnNat⟩ := stop_of_fits h
  refine ⟨⟨n, 0⟩, by simp only [shrinkToEnd, hn, bind, Except.bind]; rfl, ?_⟩
  rw [Span.shrinkToEnd_of_fits h, toSpan, toSpan, hnNat]
  rfl

/-- Spans in words fail to be united only in that an end is no word. -/
theorem exists_union_of_not_fits (h : ¬ s.toSpan.Fits ∨ ¬ t.toSpan.Fits) :
    ∃ n k, s.union t = .error (.sum n k) := by
  by_cases hs : s.toSpan.Fits
  · obtain ⟨n, hn, -⟩ := stop_of_fits hs
    have ht := stop_of_not_fits (h.resolve_left (not_not_intro hs))
    exact ⟨t.base, t.len, by simp only [union, hn, ht, bind, Except.bind]⟩
  · exact ⟨s.base, s.len, by simp only [union, stop_of_not_fits hs, bind, Except.bind]⟩

end WordSpan
end Scenario
