import DArc.Archive.Footer
import DArc.Archive.OutStream

/-!
# Strings in a byte stream

A string goes into an output stream as its UTF-8 bytes and a zero byte, between other values.  Read at the
position where it begins, it comes back, and the position is then behind the zero byte.

### Main results

* `encodeAll_writeStringOps`: what is written for a string;
* `utf8_roundTrip`: both pairs of codecs.
-/

namespace DArc.Archive

/-- `InStream`: the memory that is read, and the position in it. -/
structure InStream where
  buf : List UInt8
  pos : ℕ

/-- `read` for `String`, with `unpackCStringUtf8` at the position of the stream. -/
def InStream.readString (s : InStream) : Option (Str × InStream) := do
  let (str, rest) ← DArc.Archive.readString (s.buf.drop s.pos)
  return (str, { s with pos := s.buf.length - rest.length })

/-- Bytes are written as they are. -/
lemma encodeAll_bytes (bytes : List UInt8) :
    encodeAll (storable 1).encode (bytes.map fun b => b.toBitVec) = some bytes := by
  induction bytes with
  | nil => rfl
  | cons b bytes ih =>
    have hbyte : (storable 1).encode b.toBitVec = some [b] := by
      change some [UInt8.ofNat b.toBitVec.toNat] = some [b]
      rw [UInt8.toNat_toBitVec, UInt8.ofNat_toNat]
    rw [List.map_cons, encodeAll_cons, hbyte, ih]
    rfl

/-- What is written for a string: its bytes and a zero byte. -/
lemma encodeAll_writeStringOps (s : Str) :
    encodeAll Op.encode (writeStringOps s) = some (toUTF8List s ++ [0]) := by
  have hzero : encodeAll Op.encode [Op.value (storable 1) 0#8] = some [0] := rfl
  rw [writeStringOps, encodeAll_cons, hzero, Op.encode, encodeAll_bytes]
  rfl

/-- A string is read where it begins. -/
lemma readString_between {s : Str} (h : 0 ∉ s) (front back : List UInt8) :
    InStream.readString ⟨front ++ (toUTF8List s ++ [0]) ++ back, front.length⟩ =
      some (s, ⟨front ++ (toUTF8List s ++ [0]) ++ back, front.length + (toUTF8List s ++ [0]).length⟩) := by
  obtain ⟨w, hw, hread⟩ := string_transmits h
  obtain rfl : toUTF8List s ++ [0] = w := Option.some.inj hw
  have hdrop : (front ++ (toUTF8List s ++ [0]) ++ back).drop front.length =
      toUTF8List s ++ [0] ++ back := by
    rw [List.append_assoc, List.drop_left]
  have hpos : (front ++ (toUTF8List s ++ [0]) ++ back).length - back.length =
      front.length + (toUTF8List s ++ [0]).length := by
    rw [List.length_append, Nat.add_sub_cancel, List.length_append]
  rw [InStream.readString, hdrop, hread back]
  exact congrArg (fun pos => some (s, InStream.mk _ pos)) hpos

/-- **UTF-8 strings survive both codecs**: every list of code points is decoded from its bytes; and whenever a
string without NUL was written to a stream, whatever the buffers of the stream are and whatever was written in
front of it and behind it, the string is read back from where it begins, and the position is then right behind
its zero byte. -/
theorem utf8_roundTrip (s : Str) :
    fromUTF8 (toUTF8List s) = some s ∧
      (0 ∉ s → ∀ supply front back chunks,
        writeAll supply (front ++ writeStringOps s ++ back) = .ok chunks →
          ∃ w, encodeAll Op.encode front = some w ∧
            InStream.readString ⟨chunks.flatten, w.length⟩ =
              some (s, ⟨chunks.flatten, w.length + (toUTF8List s ++ [0]).length⟩)) := by
  refine ⟨fromUTF8_toUTF8List s, fun hnul supply front back chunks hrun => ?_⟩
  have hends := writeAll_ends supply (front ++ writeStringOps s ++ back)
  rw [hrun] at hends
  simp only [encodeAll_append, encodeAll_writeStringOps] at hends
  obtain ⟨v, hv, hback⟩ := Option.bind_eq_some_iff.mp hends
  obtain ⟨w, hfront, hstring⟩ := Option.bind_eq_some_iff.mp hv
  obtain ⟨u, -, hflat⟩ := Option.map_eq_some_iff.mp hback
  obtain rfl : w ++ (toUTF8List s ++ [0]) = v := Option.some.inj hstring
  refine ⟨w, hfront, ?_⟩
  rw [← hflat]
  exact readString_between hnul w u

set_option maxRecDepth 4000 in
/-- A string of one character in front of a flag, in buffers of 128 bytes. -/
theorem utf8_roundTrip_letter :
    ∃ w, encodeAll Op.encode [] = some w ∧
      InStream.readString ⟨[[97, 0, 1]].flatten, w.length⟩ =
        some ([97], ⟨[[97, 0, 1]].flatten, w.length + (toUTF8List [97] ++ [0]).length⟩) := by
  have hrun : writeAll (fun _ => List.replicate 128 0)
      ([] ++ writeStringOps [97] ++ [Op.value bool true]) = .ok [[97, 0, 1]] := by
    rw [writeAll, writeStringOps, List.nil_append, List.cons_append, List.foldlM_cons, Op.run,
      writeListFast]
    rfl
  exact (utf8_roundTrip [97]).2 (by decide) _ _ _ _ hrun

end DArc.Archive
