import ROssFuzz.GrowingRetries
import Mathlib.Algebra.Order.Group.Nat

/-!
# The output buffers of memDecompress

The gzip and zstd loops of `do_memDecompress`. The size recorded in a gzip trailer or a zstd
frame header is part of the input, so it is cut down before the first attempt; from there
the buffer grows while the decoder says that it is too small. `R_alloc` may raise an error
instead, and what the decoder answers is a parameter: `none` is "insufficient space", any
other answer ends the loop. A `size_t` has 64 bits.
-/

namespace ROssFuzz.MemDecompress
open GrowingRetries

/-- A raw vector. The longest R has is `R_XLEN_T_MAX`, 2⁵² bytes. -/
structure RawVector where
  bytes : List UInt8
  length_le : bytes.length ≤ 2 ^ 52

/-- `SIZE_MAX`, and `ULONG_MAX`. -/
def sizeMax : ℕ := 2 ^ 64 - 1

/-- What comes of an operation on `size_t` whose exact result is `x`. -/
def asSize (x : ℕ) : ℕ := x % 2 ^ 64

namespace RawVector

def inlen (v : RawVector) : ℕ := v.bytes.length

/-- An in-memory gzip file: at least a member's header and trailer, and the magic number. -/
def IsGzip (v : RawVector) : Prop :=
  18 ≤ v.inlen ∧ v.bytes[0]? = some 0x1f ∧ v.bytes[1]? = some 0x8b

instance (v : RawVector) : Decidable v.IsGzip := inferInstanceAs (Decidable (_ ∧ _))

end RawVector

/-- `get_unaligned_le32(&p[i])`, `none` where it would read outside of the vector. -/
def getUnalignedLe32 (p : List UInt8) (i : ℕ) : Option ℕ := do
  let b₀ ← p[i]?
  let b₁ ← p[i + 1]?
  let b₂ ← p[i + 2]?
  let b₃ ← p[i + 3]?
  some (b₀.toNat + b₁.toNat * 2 ^ 8 + b₂.toNat * 2 ^ 16 + b₃.toNat * 2 ^ 24)

/-! ### gzip -/

/-- `maxlen`. -/
def gzipCap (inlen : ℕ) : ℕ := asSize (1032 * inlen + 64)

/-- The first size, from the `ISIZE` of the trailer; `none` for what is no gzip file. -/
def gzipStart (v : RawVector) : Option ℕ :=
  if v.IsGzip then do
    let outlen ← getUnalignedLe32 v.bytes (v.inlen - 4)
    some (if outlen = 0 then 1 else if outlen > gzipCap v.inlen then gzipCap v.inlen else outlen)
  else none

/-- After `LIBDEFLATE_INSUFFICIENT_SPACE`. -/
def gzipNext (outlen : ℕ) : Option ℕ :=
  if outlen < sizeMax / 2 then some (asSize (outlen * 2)) else none

variable {β : Type*}

section Loops
variable (alloc : ℕ → ℕ → Bool) (decode : ℕ → ℕ → Option β)

def gzipLoop (start fuel : ℕ) : Option (Attempts β) := retry alloc decode gzipNext fuel 0 start

/-! ### zstd -/

def zstdCap (inlen : ℕ) : ℕ := asSize (3 * inlen)

/-- `ZSTD_CONTENTSIZE_ERROR`. -/
def zstdContentsizeError : ℕ := 2 ^ 64 - 2

/-- `recorded` comes from `ZSTD_getFrameContentSize`, or from `ZSTD_decompressBound` where
the header has no size; `none` is the error raised for what is no frame. -/
def zstdStart (inlen recorded : ℕ) : Option ℕ :=
  if recorded = zstdContentsizeError then none
  else some (if recorded > zstdCap inlen then zstdCap inlen else recorded)

/-- After `ZSTD_error_dstSize_tooSmall`. -/
def zstdNext (inlen outlen : ℕ) : Option ℕ :=
  if outlen < sizeMax / 2 then
    some (if outlen < zstdCap inlen then zstdCap inlen else asSize (2 * outlen))
  else none

/-- `vmaxset` gives the buffer of one attempt back before the next. -/
def zstdLoop (inlen start fuel : ℕ) : Option (Attempts β) :=
  retry alloc decode (zstdNext inlen) fuel 0 start

end Loops

/-! ### The schedules -/

private theorem doubled {n : ℕ} (h : n < sizeMax / 2) :
    asSize (n * 2) = 2 * n ∧ asSize (2 * n) = 2 * n := by
  have hmax : sizeMax / 2 = 2 ^ 63 - 1 := by decide
  rw [hmax] at h
  constructor <;> rw [asSize, Nat.mod_eq_of_lt (by omega)]
  exact Nat.mul_comm n 2

/-- No raw vector is so long that its cap wraps around. -/
theorem RawVector.gzipCap_eq (v : RawVector) : gzipCap v.inlen = 1032 * v.inlen + 64 := by
  have hle := v.length_le
  rw [gzipCap, asSize, Nat.mod_eq_of_lt]
  change 1032 * v.bytes.length + 64 < 2 ^ 64
  omega

theorem RawVector.zstdCap_eq (v : RawVector) : zstdCap v.inlen = 3 * v.inlen := by
  have hle := v.length_le
  rw [zstdCap, asSize, Nat.mod_eq_of_lt]
  change 3 * v.bytes.length < 2 ^ 64
  omega

/-- The trailer of a gzip file is inside of it. -/
theorem gzipStart_isSome {v : RawVector} (h : v.IsGzip) : ∃ start, gzipStart v = some start := by
  have hlen := h.1
  have hin : v.inlen - 4 + 3 < v.bytes.length := by
    change v.bytes.length - 4 + 3 < v.bytes.length
    change 18 ≤ v.bytes.length at hlen
    omega
  rw [gzipStart, if_pos h, getUnalignedLe32, List.getElem?_eq_getElem (by omega),
    List.getElem?_eq_getElem (by omega), List.getElem?_eq_getElem (by omega),
    List.getElem?_eq_getElem hin]
  exact ⟨_, rfl⟩

theorem gzipStart_bounds {v : RawVector} {start : ℕ} (h : gzipStart v = some start) :
    0 < start ∧ start ≤ gzipCap v.inlen := by
  have hcap := v.gzipCap_eq
  unfold gzipStart at h
  split at h
  · obtain ⟨outlen, -, hout⟩ := Option.bind_eq_some_iff.mp h
    obtain rfl := Option.some.inj hout
    split
    · omega
    · split <;> omega
  · cases h

theorem zstdStart_le {inlen recorded start : ℕ} (h : zstdStart inlen recorded = some start) :
    start ≤ zstdCap inlen := by
  unfold zstdStart at h
  split at h
  · cases h
  · obtain rfl := Option.some.inj h
    split <;> omega

/-- Doublings that the size still has before it, at most. -/
def doublingsLeft (n : ℕ) : ℕ := 63 - n.log2

private theorem doublingsLeft_double {n : ℕ} (hpos : 0 < n) (h : n < sizeMax / 2) :
    doublingsLeft (2 * n) < doublingsLeft n := by
  have hmax : sizeMax / 2 = 2 ^ 63 - 1 := by decide
  have hlog : n.log2 < 63 := (Nat.log2_lt (by omega)).mpr (by omega)
  have hdouble : (2 * n).log2 = n.log2 + 1 := Nat.log2_two_mul (by omega)
  unfold doublingsLeft
  omega

theorem gzipNext_eq {n m : ℕ} (h : gzipNext n = some m) : n < sizeMax / 2 ∧ m = 2 * n := by
  unfold gzipNext at h
  split at h
  · rename_i hlt
    obtain rfl := Option.some.inj h
    exact ⟨hlt, (doubled hlt).1⟩
  · cases h

theorem zstdNext_eq {inlen n m : ℕ} (h : zstdNext inlen n = some m) :
    n < sizeMax / 2 ∧ (n < zstdCap inlen ∧ m = zstdCap inlen ∨ zstdCap inlen ≤ n ∧ m = 2 * n) := by
  unfold zstdNext at h
  split at h
  · rename_i hlt
    obtain rfl := Option.some.inj h
    refine ⟨hlt, ?_⟩
    split
    · exact .inl ⟨‹_›, rfl⟩
    · exact .inr ⟨by omega, (doubled hlt).2⟩
  · cases h

/-- A zstd buffer below the cap has the jump to it left as well. -/
def zstdRank (inlen n : ℕ) : ℕ :=
  if n < zstdCap inlen then doublingsLeft (zstdCap inlen) + 1 else doublingsLeft n

theorem gzipNext_rank {n m : ℕ} (hpos : 0 < n) (h : gzipNext n = some m) :
    (0 < m ∧ n < m) ∧ doublingsLeft m < doublingsLeft n := by
  obtain ⟨hlt, rfl⟩ := gzipNext_eq h
  exact ⟨by omega, doublingsLeft_double hpos hlt⟩

theorem zstdNext_rank {inlen n m : ℕ} (hcap : 0 < zstdCap inlen) (h : zstdNext inlen n = some m) :
    n < m ∧ zstdRank inlen m < zstdRank inlen n := by
  obtain ⟨hlt, ⟨hn, rfl⟩ | ⟨hn, rfl⟩⟩ := zstdNext_eq h
  · exact ⟨hn, by simp [zstdRank, hn]⟩
  · have hpos : 0 < n := by omega
    have hm : ¬ 2 * n < zstdCap inlen := by omega
    refine ⟨by omega, ?_⟩
    rw [zstdRank, zstdRank, if_neg hm, if_neg (by omega)]
    exact doublingsLeft_double hpos hlt

theorem zstdRank_lt {inlen n : ℕ} (hcap : 1 < zstdCap inlen) : zstdRank inlen n < 64 := by
  have hlog : 1 ≤ (zstdCap inlen).log2 := (Nat.le_log2 (by omega)).mpr (by omega)
  unfold zstdRank doublingsLeft
  split <;> omega

/-! ### Both loops -/

/-- What a loop does whose first size may be up to `cap`: it returns, whatever the decoder
answers and whether or not a buffer is refused. With a decoder that says "insufficient
space" exactly below the decoded size, and with the buffers granted up to the bound, it
returns with a buffer that is large enough, and no attempt was above the bound. -/
def GrowsWithin (alloc : ℕ → ℕ → Bool) (decode : ℕ → ℕ → Option β) (cap : ℕ)
    (loop : ℕ → Option (Attempts β)) : Prop :=
  ∃ r, (∀ fuel, 64 ≤ fuel → loop fuel = some r) ∧ r.sizes.Pairwise (· < ·) ∧
    (∃ first rest, r.sizes = first :: rest ∧ first ≤ cap) ∧
    ∀ size < 2 ^ 62, (∀ k n, decode k n = none ↔ n < size) →
      (∀ k n, n ≤ max cap (2 * size) → alloc k n = true) →
      (∃ y, r.ended = .settled y) ∧ size ≤ r.last ∧ ∀ n ∈ r.sizes, n ≤ max cap (2 * size)

/-- A schedule that a rank below 64 goes down along grows within `cap`, if the retries of
sizes below a quarter of the type's range go no further than `cap` or twice the size. -/
private theorem growsWithin_of_rank {alloc : ℕ → ℕ → Bool} {decode : ℕ → ℕ → Option β}
    {next : ℕ → Option ℕ} {P : ℕ → Prop} {rank : ℕ → ℕ} {cap start : ℕ}
    (hnext : ∀ n m, P n → next n = some m → (P m ∧ n < m) ∧ rank m < rank n)
    (hgo : ∀ n < 2 ^ 62, ∃ m ≤ max cap (2 * n), next n = some m)
    (hP : P start) (hrank : rank start < 64) (hstart : start ≤ cap) :
    GrowsWithin alloc decode cap fun fuel => retry alloc decode next fuel 0 start := by
  obtain ⟨r, hr⟩ : ∃ r, retry alloc decode next 64 0 start = some r :=
    retry_returns (fun n m hn hm => ⟨(hnext n m hn hm).1.1, (hnext n m hn hm).2⟩) hP hrank
  obtain ⟨rest, hrest⟩ := sizes_head hr
  refine ⟨r, fun fuel hfuel => retry_mono hfuel hr, ?_, ⟨start, rest, hrest, hstart⟩, ?_⟩
  · exact sizes_increase (fun n m hn hm => (hnext n m hn hm).1) hP hr
  · intro size hsize hexact halloc
    refine reaches hexact halloc (fun n hn => ?_) (hstart.trans (le_max_left _ _)) hr
    obtain ⟨m, hle, hm⟩ := hgo n (by omega)
    exact ⟨m, by omega, hm⟩

/-- `memDecompress` trusts no recorded size and reaches the real one: the gzip loop on every
gzip file, and the zstd loop on every vector that is not empty, for every recorded size that
is not refused as an error. -/
theorem memDecompress_grows (v : RawVector) (alloc : ℕ → ℕ → Bool) (decode : ℕ → ℕ → Option β) :
    (v.IsGzip → ∃ start, gzipStart v = some start ∧
      GrowsWithin alloc decode (1032 * v.inlen + 64) (gzipLoop alloc decode start)) ∧
    (1 ≤ v.inlen → ∀ recorded start, zstdStart v.inlen recorded = some start →
      GrowsWithin alloc decode (3 * v.inlen) (zstdLoop alloc decode v.inlen start)) := by
  have hmax : sizeMax / 2 = 2 ^ 63 - 1 := by decide
  constructor
  · intro h
    obtain ⟨start, hstart⟩ := gzipStart_isSome h
    obtain ⟨hpos, hle⟩ := gzipStart_bounds hstart
    have hrank : ∀ n m, 0 < n → gzipNext n = some m →
        (0 < m ∧ n < m) ∧ doublingsLeft m < doublingsLeft n := fun n m => gzipNext_rank
    refine ⟨start, hstart, growsWithin_of_rank hrank ?_ hpos ?_ (v.gzipCap_eq ▸ hle)⟩
    · intro n hn
      have hlt : n < sizeMax / 2 := by omega
      exact ⟨2 * n, le_max_right _ _, by rw [gzipNext, if_pos hlt, (doubled hlt).1]⟩
    · unfold doublingsLeft
      omega
  · intro h recorded start hstart
    have hcap := v.zstdCap_eq
    have hrank : ∀ n m, True → zstdNext v.inlen n = some m →
        (True ∧ n < m) ∧ zstdRank v.inlen m < zstdRank v.inlen n := by
      intro n m _ hm
      obtain ⟨hlt, hrank⟩ := zstdNext_rank (by omega) hm
      exact ⟨⟨trivial, hlt⟩, hrank⟩
    refine growsWithin_of_rank hrank (fun n hn => ?_) trivial (zstdRank_lt (by omega))
      (hcap ▸ zstdStart_le hstart)
    have hlt : n < sizeMax / 2 := by omega
    refine ⟨_, ?_, if_pos hlt⟩
    rw [(doubled hlt).2, hcap]
    split
    · exact le_max_left _ _
    · exact le_max_right _ _

/-- A gzip member that claims 4 GB and holds 100000 bytes is tried at 18640 bytes first; a
zstd frame of 11 bytes that claims as much and holds 100 is tried at 33. -/
theorem memDecompress_grows_forged :
    (∃ r : Attempts Unit, gzipLoop (fun _ _ => true)
        (fun _ n => if n < 100000 then none else some ()) 18640 64 = some r ∧
      100000 ≤ r.last ∧ ∀ n ∈ r.sizes, n ≤ 200000) ∧
    ∃ r : Attempts Unit, zstdLoop (fun _ _ => true)
        (fun _ n => if n < 100 then none else some ()) 11 33 64 = some r ∧
      100 ≤ r.last ∧ ∀ n ∈ r.sizes, n ≤ 200 := by
  constructor
  · let v : RawVector := ⟨[0x1f, 0x8b] ++ List.replicate 12 0 ++ List.replicate 4 0xff, by decide⟩
    obtain ⟨start, hstart, r, hr, -, -, hreach⟩ := (memDecompress_grows v (fun _ _ => true)
      (fun _ n => if n < 100000 then none else some ())).1 (by decide)
    obtain rfl : 18640 = start := by
      have heq : gzipStart v = some 18640 := by decide
      simpa [heq] using hstart
    obtain ⟨-, hlast, hsizes⟩ := hreach 100000 (by decide) (by simp) (by simp)
    exact ⟨r, hr 64 (le_refl _), hlast, fun n hn => by simpa [v, RawVector.inlen] using hsizes n hn⟩
  · let v : RawVector := ⟨List.replicate 11 0, by decide⟩
    obtain ⟨r, hr, -, -, hreach⟩ := (memDecompress_grows v (fun _ _ => true)
      (fun _ n => if n < 100 then none else some ())).2 (by decide) 4252017623 33 (by decide)
    obtain ⟨-, hlast, hsizes⟩ := hreach 100 (by decide) (by simp) (by simp)
    exact ⟨r, hr 64 (le_refl _), hlast, fun n hn => by simpa [v, RawVector.inlen] using hsizes n hn⟩

end ROssFuzz.MemDecompress
