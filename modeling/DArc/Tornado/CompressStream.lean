import DArc.Tornado.Compress
import DArc.Tornado.LZ77Codecs

/-!
# What the coder is told describes a stream

What the decoder finds for the calls of the coder agrees with a stream, in which the tables are replaced by their
differences.  Every call adds some items to it, and a change of the stream behind them does not matter.

### Outline

* `Parse.append`, `Parse.congr`: parts of a stream;
* `Told`: what the coder has been told up to a position.

### Main results

* `Told.literal`, `Told.copy`, `Told.table`, `Told.shift`: the calls of the compressor.
-/

namespace DArc.Tornado

/-! ## Parts of a stream -/

section Parts

variable {R R' : Memory} {bufsize : ℕ} {pos : Int} {found : Found} {founds founds' : List Found}
  {items items' : List Item}

/-- The number of the bytes of a memory. -/
@[simp] lemma length_memory_bytes (m : Memory) (a : Int) (n : ℕ) : (m.bytes a n).length = n := by
  simp [Memory.bytes]

/-- One thing is found. -/
lemma Parse.single (h : found.Fits R bufsize pos) : Parse R bufsize pos [found] (found.items R pos) := by
  have hparse := Parse.cons h (.nil _)
  rwa [List.append_nil] at hparse

/-- Something more is found. -/
lemma Parse.append (h : Parse R bufsize pos founds items)
    (h' : Parse R bufsize (pos + (bytesOf items).length) founds' items') :
    Parse R bufsize pos (founds ++ founds') (items ++ items') := by
  induction h with
  | nil pos =>
    rw [bytesOf, List.length_nil, Nat.cast_zero, add_zero] at h'
    exact h'
  | @cons pos found founds items hfits _ ih =>
    rw [bytesOf_append, List.length_append, Nat.cast_add, ← add_assoc] at h'
    rw [List.cons_append, List.append_assoc]
    exact .cons hfits (ih h')

/-- The items are not fewer than what is found. -/
lemma Parse.length_le (h : Parse R bufsize pos founds items) : founds.length ≤ items.length := by
  induction h with
  | nil pos => exact le_rfl
  | @cons pos found founds items hfits _ ih =>
    have hone : 1 ≤ (found.items R pos).length := by
      cases found with
      | literal c => exact le_rfl
      | copy len dist =>
        rw [Found.Fits] at hfits
        rw [Found.items]
        split_ifs at hfits ⊢ with hlen htable
        · rw [List.length_map, length_memory_bytes]
          exact hfits.1.1
        · exact le_rfl
        · exact absurd hfits.1 htable
    rw [List.length_cons, List.length_append]
    omega

/-- The bytes of what is found are those of the stream. -/
lemma Found.bytesOf_items (h : found.Fits R bufsize pos) :
    bytesOf (found.items R pos) = R.bytes pos (bytesOf (found.items R pos)).length := by
  cases found with
  | literal c =>
    change [c] = R.bytes pos 1
    rw [bytes_succ]
    exact congrArg (· :: []) h.symm
  | copy len dist =>
    rw [Found.items]
    split_ifs
    · rw [bytesOf_map_byte, length_memory_bytes]
    · rfl
    · rfl

/-- **The bytes** are those of the stream. -/
theorem Parse.bytesOf_eq (h : Parse R bufsize pos founds items) :
    bytesOf items = R.bytes pos (bytesOf items).length := by
  induction h with
  | nil pos => rfl
  | @cons pos found founds items hfits _ ih =>
    rw [bytesOf_append, List.length_append, Memory.bytes_add, ← Found.bytesOf_items hfits, ← ih]

/-- What is found agrees with a stream that is the same up to there. -/
lemma Found.Fits.congr (h : found.Fits R bufsize pos)
    (hsame : ∀ x < pos + (bytesOf (found.items R pos)).length, R' x = R x) :
    found.Fits R' bufsize pos ∧ found.items R' pos = found.items R pos := by
  cases found with
  | literal c =>
    refine ⟨?_, rfl⟩
    have hbyte := hsame pos (by change pos < pos + ((1 : ℕ) : Int); omega)
    change R' pos = c
    rw [hbyte]
    exact h
  | copy len dist =>
    rw [Found.Fits] at h ⊢
    rw [Found.items] at hsame ⊢
    rw [Found.items]
    split_ifs at h hsame ⊢ with hlen htable
    · rw [bytesOf_map_byte, length_memory_bytes] at hsame
      obtain ⟨hlen, hdist, hbefore, hrepeat⟩ := h
      refine ⟨⟨hlen, hdist, hbefore, fun i hi => ?_⟩, ?_⟩
      · rw [hsame _ (by omega), hsame _ (by omega), hrepeat i hi]
      · rw [Memory.bytes_congr fun i hi => hsame _ (by omega)]
    · exact ⟨h, rfl⟩
    · exact ⟨h, rfl⟩

/-- **All that is found** agrees with a stream that is the same up to there. -/
theorem Parse.congr (h : Parse R bufsize pos founds items)
    (hsame : ∀ x < pos + (bytesOf items).length, R' x = R x) : Parse R' bufsize pos founds items := by
  induction h with
  | nil pos => exact .nil pos
  | @cons pos found founds items hfits _ ih =>
    rw [bytesOf_append, List.length_append, Nat.cast_add] at hsame
    obtain ⟨hfits', hitems⟩ := hfits.congr fun x hx => hsame x (by omega)
    have hrest := ih fun x hx => hsame x (by omega)
    rw [← hitems] at hrest ⊢
    exact .cons hfits' hrest

end Parts

/-! ## What the coder has been told -/

/-- What the decoder finds for calls one after the other. -/
lemma PrevDists.founds_append (minlen : ℕ) (prev : PrevDists) (calls calls' : List Call) :
    prev.founds minlen (calls ++ calls') = prev.founds minlen calls ++ (prev.after minlen calls).founds minlen calls' := by
  induction calls generalizing prev with
  | nil => rfl
  | cons call calls ih =>
    rw [List.cons_append, PrevDists.founds, PrevDists.founds, ih, List.append_assoc]
    rfl

/-- What the decoder finds for a last call. -/
lemma PrevDists.founds_concat (minlen : ℕ) (prev : PrevDists) (calls : List Call) (call : Call) :
    prev.founds minlen (calls ++ [call]) = prev.founds minlen calls ++ (prev.after minlen calls).found minlen call := by
  rw [PrevDists.founds_append, PrevDists.founds, PrevDists.founds, List.append_nil]

/-- The last distances after a last call. -/
lemma PrevDists.after_concat (minlen : ℕ) (prev : PrevDists) (calls : List Call) (call : Call) :
    prev.after minlen (calls ++ [call]) = ((prev.after minlen calls).put minlen call).2 := by
  unfold PrevDists.after
  rw [List.foldl_append]
  rfl

/-- The last distance after a match, which is forgotten after a table. -/
lemma PrevDists.encodeMatch_prevdist0 (prev : PrevDists) (len dist : ℕ) :
    (prev.encodeMatch len dist).2.prevdist0 = if impossibleLen < len then -1 else (dist : Int) := by
  have hdist : (prev.distCode dist).2.prevdist0 = dist := by
    rcases prev.distCode_cases dist with ⟨-, h⟩ | ⟨-, h⟩ | ⟨-, h⟩ | ⟨-, h⟩ | h <;> rw [h]
  change (if impossibleLen < len then { (prev.distCode dist).2 with prevdist0 := -1 }
    else (prev.distCode dist).2).prevdist0 = _
  split_ifs
  · rfl
  · exact hdist

/-- The coder has been told the items of a stream up to a position, and may know a last distance that lies in the
buffer. -/
structure Told (S : Memory) (bufsize minlen : ℕ) (calls : List Call) (items : List Item) (pos p : Int) : Prop where
  parse : Parse S bufsize 0 (PrevDists.new.founds minlen calls) items
  plainParse : Parse S bufsize 0 (calls.flatMap (Call.found minlen)) items
  length : ((bytesOf items).length : Int) = pos
  last : (PrevDists.new.after minlen calls).prevdist0 + 1 ≤ p
  ok : ∀ call ∈ calls, call.Ok minlen

namespace Told

variable {S : Memory} {bufsize minlen : ℕ} {calls : List Call} {items : List Item} {pos p : Int}

/-- Nothing has been told. -/
lemma nil (S : Memory) (bufsize minlen : ℕ) : Told S bufsize minlen [] [] 0 0 :=
  ⟨.nil 0, .nil 0, rfl, le_rfl, fun _ hmem => absurd hmem List.not_mem_nil⟩

/-- The stream may change behind. -/
lemma congr (h : Told S bufsize minlen calls items pos p) {S' : Memory} (hsame : ∀ x < pos, S' x = S x) :
    Told S' bufsize minlen calls items pos p :=
  ⟨h.parse.congr (by rwa [zero_add, h.length]), h.plainParse.congr (by rwa [zero_add, h.length]), h.length, h.last, h.ok⟩

/-- One more call. -/
lemma concat (h : Told S bufsize minlen calls items pos p) (call : Call) {items' : List Item} {p' : Int}
    (hparse : Parse S bufsize pos ((PrevDists.new.after minlen calls).found minlen call) items')
    (hplain : Parse S bufsize pos (call.found minlen) items') (hok : call.Ok minlen)
    (hlast : ((PrevDists.new.after minlen calls).put minlen call).2.prevdist0 + 1 ≤ p') :
    Told S bufsize minlen (calls ++ [call]) (items ++ items') (pos + (bytesOf items').length) p' where
  parse := by
    rw [PrevDists.founds_concat]
    exact h.parse.append (by rwa [zero_add, h.length])
  plainParse := by
    rw [List.flatMap_append, List.flatMap_singleton]
    exact h.plainParse.append (by rwa [zero_add, h.length])
  length := by rw [bytesOf_append, List.length_append, Nat.cast_add, h.length]
  last := by rwa [PrevDists.after_concat]
  ok := by
    intro c hc
    rcases List.mem_append.mp hc with hc | hc
    · exact h.ok c hc
    · rwa [List.mem_singleton.mp hc]

/-- The data have been shifted. -/
lemma shift (h : Told S bufsize minlen calls items pos p) {p' : Int} (hp : 0 ≤ p') :
    Told S bufsize minlen (calls ++ [.shiftOccurs]) items pos p' := by
  have hconcat := h.concat .shiftOccurs (.nil pos) (.nil pos) trivial hp
  rwa [List.append_nil, bytesOf, List.length_nil, Nat.cast_zero, add_zero] at hconcat

variable {buf : Memory} {len : ℕ} {q : Int}

/-- **A literal** is encoded, or the character at the last distance. -/
theorem literal (h : Told S bufsize minlen calls items pos p) (hp : p ≤ pos) (hsize : p ≤ outSize bufsize)
    (hbufsize : 0 < bufsize) (hlen : len < minlen)
    (hbuf : ∀ x, 0 ≤ x → x ≤ p → buf x = S (pos - p + x)) (hpos : 0 ≤ p) :
    Told S bufsize minlen (calls ++ [.encode buf len p q]) (items ++ [.byte (S pos)]) (pos + 1) (p + 1) := by
  have hbyte : buf p = S pos := by rw [hbuf p hpos le_rfl, sub_add_cancel]
  have hliteral : Parse S bufsize pos [.literal (buf p)] [.byte (S pos)] := by
    rw [hbyte]
    exact Parse.single (rfl : (Found.literal (S pos)).Fits S bufsize pos)
  refine h.concat _ ?_ ?_ (fun hle => absurd hlen (not_lt.mpr hle)) ?_
  · rw [PrevDists.found, if_pos hlen]
    have hlast := h.last
    split_ifs with hrep
    · obtain ⟨hsame, hknown⟩ := hrep
      generalize (PrevDists.new.after minlen calls).prevdist0 = dist at hlast hsame hknown ⊢
      have hone : S.bytes pos 1 = [S pos] := by rw [bytes_succ]; rfl
      have hfits : (Found.copy 1 (dist + 1).toNat).Fits S bufsize pos := by
        rw [Found.Fits, if_pos (by decide)]
        refine ⟨⟨Nat.one_pos, by omega⟩, ⟨by omega, by omega⟩, by omega, fun i hi => ?_⟩
        rw [Nat.lt_one_iff.mp hi, Nat.cast_zero, add_zero, ← hbyte, hsame, hbuf _ (by omega) (by omega)]
        congr 1
        omega
      have hparse := Parse.single hfits
      rwa [Found.items, if_pos (by decide), hone] at hparse
    · exact hliteral
  · rw [Call.found, if_pos hlen]
    exact hliteral
  · rw [PrevDists.put, if_pos hlen]
    have hlast := h.last
    split_ifs <;> dsimp only <;> omega

/-- **A match** is encoded. -/
theorem copy (h : Told S bufsize minlen calls items pos p) (hp : p ≤ pos) (hsize : p ≤ outSize bufsize)
    (hmin : 0 < minlen) (hlen : minlen ≤ len) (hle : len < impossibleLen) (hlong : len ≤ 2 * bufsize)
    (hdist : p ≤ impossibleDist) {e : Int}
    (hbuf : ∀ x, 0 ≤ x → x < e → buf x = S (pos - p + x)) (hq : 0 ≤ q) (hmatch : MatchAt buf p e len q) :
    Told S bufsize minlen (calls ++ [.encode buf len p q]) (items ++ (S.bytes pos len).map Item.byte) (pos + len)
      (p + len) := by
  obtain ⟨hlt, hend, hsame⟩ := hmatch
  have hfits : (Found.copy len (p - q).toNat).Fits S bufsize pos := by
    rw [Found.Fits, if_pos hle]
    refine ⟨⟨by omega, hlong⟩, ⟨by omega, by omega⟩, by omega, fun i hi => ?_⟩
    have hbyte := hsame i hi
    rw [hbuf _ (by omega) (by omega), hbuf _ (by omega) (by omega)] at hbyte
    rw [show pos + (i : Int) = pos - p + (p + i) by ring, hbyte]
    congr 1
    omega
  have hparse := Parse.single hfits
  rw [Found.items, if_pos hle] at hparse
  have hbytes : ((bytesOf ((S.bytes pos len).map Item.byte)).length : Int) = len := by
    rw [bytesOf_map_byte, length_memory_bytes]
  rw [← hbytes]
  refine h.concat _ ?_ ?_ (fun _ => ⟨hle.le, hlt, by omega⟩) ?_
  · rwa [PrevDists.found, if_neg (not_lt.mpr hlen)]
  · rwa [Call.found, if_neg (not_lt.mpr hlen)]
  · rw [PrevDists.put, if_neg (not_lt.mpr hlen), hbytes, PrevDists.encodeMatch_prevdist0, if_neg (by omega)]
    omega

/-- **A table** is encoded. -/
theorem table (h : Told S bufsize minlen calls items pos p) {N rows : ℕ} (hN : N = 2 ∨ N = 4) (hrows : 1 ≤ rows)
    (hle : rows * N ≤ 2 * bufsize) (hsize : rows ≤ impossibleDist) (hp : 0 ≤ p) :
    Told S bufsize minlen (calls ++ [.encodeTable N rows]) (items ++ [.table N hN rows]) pos p := by
  have hfits : (Found.copy (impossibleLen + N) rows).Fits S bufsize pos := by
    rw [Found.Fits, if_neg (by omega), Nat.add_sub_cancel_left]
    exact ⟨hN, hle⟩
  have hparse := Parse.single hfits
  rw [Found.items, if_neg (by omega), Nat.add_sub_cancel_left, dif_pos hN] at hparse
  have hlast : ((PrevDists.new.after minlen calls).put minlen (.encodeTable N rows)).2.prevdist0 + 1 ≤ p := by
    rw [PrevDists.put, PrevDists.encodeMatch_prevdist0, if_pos (by omega)]
    omega
  have hconcat := h.concat (.encodeTable N rows) hparse hparse ⟨by omega, hrows, hsize⟩ hlast
  rwa [bytesOf, bytesOf, List.length_nil, Nat.cast_zero, add_zero] at hconcat

end Told

end DArc.Tornado
