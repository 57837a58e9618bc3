import DArc.Archive.OutStream
import DArc.Unarc.MemoryBuffer

/-!
# The code of numbers

The numbers of the directory have a code of variable length.  The archiver writes and reads it, and the unpacker
reads it with a function of its own.

### Main results

* `integer_prefix_free`: no code is the beginning of another one;
* `readers_agree`: what both readers can read is the same number for both;
* `integer_code`: these, and that every number below `2 ^ 64` is read back.
-/

namespace DArc.Unarc

open DArc.Archive (writeInteger maxSizeOfInteger length_writeInteger integer_encodes integer_transmits)

/-- No code is the beginning of the code of another number. -/
lemma integer_prefix_free {x y : Int} {w v : List UInt8} (hw : writeInteger x = some w)
    (hv : writeInteger y = some v) (h : w <+: v) : x = y ∧ w = v := by
  obtain ⟨t, rfl⟩ := h
  have hx : DArc.Archive.readInteger (w ++ t) = some (x, t) := integer_encodes hw t
  have hy : DArc.Archive.readInteger (w ++ t) = some (y, []) := by
    have hread := integer_encodes hv []
    rwa [List.append_nil] at hread
  obtain ⟨rfl, rfl⟩ := Prod.mk.inj (Option.some.inj (hx.symm.trans hy))
  exact ⟨rfl, (List.append_nil w).symm⟩

/-- What both can read is the same number for both, of the same length. -/
lemma readers_agree {behind s rest rest' : List UInt8} {x : Int} {n : ℕ}
    (hx : DArc.Archive.readInteger s = some (x, rest)) (hn : readInteger behind s = some (n, rest')) :
    x = n ∧ rest = rest' := by
  rw [readInteger_eq, hx] at hn
  obtain ⟨rfl, rfl⟩ := Prod.mk.inj (Option.some.inj hn)
  exact ⟨(Int.toNat_of_nonneg (DArc.Archive.readInteger_nonneg hx)).symm, rfl⟩

/-- **The code of numbers**: every number below `2 ^ 64` has a code of one to nine bytes, which is read back
whatever follows it; no code is the beginning of another one; and the reader of the unpacker reads the same
number of the same length as the reader of the archiver. -/
theorem integer_code :
    (∀ x : Int, 0 ≤ x → x < 2 ^ 64 → ∃ w, writeInteger x = some w ∧ 1 ≤ w.length ∧
      w.length ≤ maxSizeOfInteger ∧ ∀ rest, DArc.Archive.readInteger (w ++ rest) = some (x, rest)) ∧
    (∀ (x y : Int) (w v : List UInt8), writeInteger x = some w → writeInteger y = some v → w <+: v →
      x = y ∧ w = v) ∧
    ∀ (behind s rest rest' : List UInt8) (x : Int) (n : ℕ),
      DArc.Archive.readInteger s = some (x, rest) → readInteger behind s = some (n, rest') →
        x = n ∧ rest = rest' := by
  refine ⟨fun x h₀ h => ?_, fun x y w v hw hv h => integer_prefix_free hw hv h,
    fun behind s rest rest' x n hx hn => readers_agree hx hn⟩
  obtain ⟨w, hw, hread⟩ := integer_transmits h₀ h
  obtain ⟨hpos, hle⟩ := length_writeInteger hw
  exact ⟨w, hw, hpos, hle, hread⟩

/-- The code of 300. -/
theorem integer_code_300 :
    (∃ w, writeInteger 300 = some w ∧ 1 ≤ w.length ∧ w.length ≤ maxSizeOfInteger ∧
      ∀ rest, DArc.Archive.readInteger (w ++ rest) = some (300, rest)) ∧
    (300 : Int) = 300 ∧
    (300 : Int) = (300 : ℕ) ∧ ([] : List UInt8) = [] := by
  refine ⟨integer_code.1 300 (by decide) (by decide), ?_, ?_⟩
  · exact (integer_code.2.1 300 300 [177, 4] [177, 4] rfl rfl (List.prefix_refl _)).1
  · exact integer_code.2.2 [] [177, 4] [] [] 300 300 rfl rfl

end DArc.Unarc
