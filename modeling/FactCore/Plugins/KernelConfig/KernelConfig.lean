import FactCore.Lib.Binary
import FactCore.Lib.Loop

/-! # Kernel configurations in images

`try_extracting_kconfig` of `plugins/analysis/kernel_config/code/kernel_config.py` with
`GZDecompressor.decompress` of `internal/decomp.py`: the kernel configuration that an
image of the kernel carries as a gzip stream between two markers.

The code looks at one pair of markers only, the first start marker and the first end
marker behind it, and takes what it can read before the stream breaks.
`try_extracting_kconfig_iff` says for which images it extracts what is there.
-/

namespace FactCore.KernelConfig

open Loop (Terminates)

/-- What reading a gzip file raises. `BadGzipFile` is a subclass of `OSError`. -/
inductive Exc where
  | osError
  | eofError
  | zlibError
deriving DecidableEq

/-- The package `gzip`: `GzipFile(fileobj=io.BytesIO(raw))` and its method `read1`. -/
structure Gzip (σ : Type) where
  opened : List UInt8 → σ
  read1 : ℕ → σ → Except Exc (List UInt8 × σ)

variable {σ : Type} (g : Gzip σ)

/-! ## The code -/

/-- `IKCFG_ST`. -/
def ikconfigStartMagic : List UInt8 := [0x49, 0x4b, 0x43, 0x46, 0x47, 0x5f, 0x53, 0x54]

/-- `IKCFG_ED`. -/
def ikconfigEndMagic : List UInt8 := [0x49, 0x4b, 0x43, 0x46, 0x47, 0x5f, 0x45, 0x44]

def gzipMagic : List UInt8 := [0x1f, 0x8b]

/-- 8 MiB. -/
def decompressChunkSize : ℕ := 8388608

/-- `except (OSError, EOFError)`. -/
def Exc.isCaught : Exc → Bool
  | osError => true
  | eofError => true
  | zlibError => false

/-- A round of the loop in `GZDecompressor.decompress`, on the stream and what has been
decompressed so far. -/
def readChunk (st : σ × List UInt8) : (σ × List UInt8) ⊕ Except Exc (List UInt8) :=
  match g.read1 decompressChunkSize st.1 with
  | .ok (chunk, stream) => if chunk = [] then .inr (.ok st.2) else .inl (stream, st.2 ++ chunk)
  | .error e => .inr (if e.isCaught then .ok st.2 else .error e)

/-- `GZDecompressor.decompress`. -/
def decompress (fuel : ℕ) (raw : List UInt8) : Option (Except Exc (List UInt8)) :=
  Loop.iterate (readChunk g) fuel (g.opened raw, [])

/-- `raw.find(sub, start)`. A negative start counts from the end. -/
def find (sub raw : List UInt8) (start : ℤ) : ℤ :=
  let i := (if start < 0 then start + raw.length else start).toNat
  match Binary.find sub (raw.drop i) with
  | some k => i + k
  | none => -1

/-- `raw[start:stop]`. -/
def slice (raw : List UInt8) (start stop : ℤ) : List UInt8 := (raw.take stop.toNat).drop start.toNat

/-- `try_extracting_kconfig`. -/
def tryExtractingKconfig (fuel : ℕ) (raw : List UInt8) : Option (Except Exc (List UInt8)) :=
  -- without a start marker the second search begins at the last byte
  let startOffset := find ikconfigStartMagic raw 0
  let endOffset := find ikconfigEndMagic raw startOffset
  if startOffset < 0 ∨ endOffset < 0 then some (.ok [])
  else
    let startOffset := startOffset + ikconfigStartMagic.length
    if slice raw startOffset (startOffset + gzipMagic.length) ≠ gzipMagic then some (.ok [])
    else decompress g fuel (slice raw startOffset endOffset)

/-! ## Streams and images -/

/-- What a stream delivers until it ends, in the end or with an exception. -/
inductive Reads : σ → List UInt8 → Option Exc → Prop
  | done {stream stream' : σ} (h : g.read1 decompressChunkSize stream = .ok ([], stream')) :
      Reads stream [] none
  | raised {stream : σ} {e : Exc} (h : g.read1 decompressChunkSize stream = .error e) :
      Reads stream [] (some e)
  | chunk {stream stream' : σ} {chunk content : List UInt8} {ending : Option Exc}
      (h : g.read1 decompressChunkSize stream = .ok (chunk, stream')) (hne : chunk ≠ [])
      (hrest : Reads stream' content ending) : Reads stream (chunk ++ content) ending

/-- A complete gzip stream and its decompressed content: it is read to the end. -/
def Complete (stream content : List UInt8) : Prop :=
  gzipMagic <+: stream ∧ Reads g (g.opened stream) content none

/-- A start marker is directly followed by a complete gzip stream without the end marker
in it, and an end marker stands behind the stream. -/
def Embedded (raw content : List UInt8) : Prop :=
  ∃ before stream gap after, raw = before ++ ikconfigStartMagic ++ stream ++ gap ++ ikconfigEndMagic ++ after ∧
    ¬ ikconfigEndMagic <:+: stream ∧ Complete g stream content

/-- With enough rounds, `try_extracting_kconfig` returns the content. -/
def Returns (raw content : List UInt8) : Prop :=
  Terminates (fun fuel => tryExtractingKconfig g fuel raw) (.ok content)

/-- An embedded stream is returned, and nothing is if there is none. -/
structure Extracts (raw : List UInt8) : Prop where
  found : (∃ content, Embedded g raw content) → ∃ content, Embedded g raw content ∧ Returns g raw content
  absent : (¬ ∃ content, Embedded g raw content) → Returns g raw []

/-- The bytes between the first start marker and the first end marker behind it. -/
structure FirstPair (raw before body after : List UInt8) : Prop where
  start : Binary.FirstSplit ikconfigStartMagic raw before (body ++ ikconfigEndMagic ++ after)
  stop : Binary.FirstSplit ikconfigEndMagic (body ++ ikconfigEndMagic ++ after) body after

/-- What can be read of some bytes: nothing if they are not gzip data, and otherwise what
they deliver before they end, or break with an exception other than a `zlib.error`. -/
def Readable (body content : List UInt8) : Prop :=
  (¬ gzipMagic <+: body ∧ content = []) ∨
    (gzipMagic <+: body ∧ ∃ ending, Reads g (g.opened body) content ending ∧ ending ≠ some .zlibError)

/-- There is no pair of markers; or an embedded stream is what can be read between the
first of them; or nothing can, and no stream is embedded. -/
def FirstPairDecides (raw : List UInt8) : Prop :=
  (∀ before body after, ¬ FirstPair raw before body after) ∨
    ∃ before body after, FirstPair raw before body after ∧
      ((∃ content, Readable g body content ∧ Embedded g raw content) ∨
        (Readable g body [] ∧ ∀ content, ¬ Embedded g raw content))

/-! ## The loop -/

variable {g} {stream : σ} {raw before body after acc content : List UInt8} {ending : Option Exc}

/-- What `decompress` makes of what a stream has delivered. -/
def outcome (ending : Option Exc) (content : List UInt8) : Except Exc (List UInt8) :=
  match ending with
  | none => .ok content
  | some e => if e.isCaught then .ok content else .error e

theorem outcome_eq_ok_iff {c : List UInt8} :
    outcome ending content = .ok c ↔ content = c ∧ ending ≠ some .zlibError := by
  rcases ending with _ | _ | _ | _ <;> simp [outcome, Exc.isCaught]

theorem terminates_of_reads (h : Reads g stream content ending) (acc : List UInt8) :
    Terminates (fun fuel => Loop.iterate (readChunk g) fuel (stream, acc))
      (outcome ending (acc ++ content)) := by
  induction h generalizing acc with
  | done h =>
      apply Terminates.of_return
      rw [readChunk, h, List.append_nil]
      rfl
  | raised h =>
      apply Terminates.of_return
      rw [readChunk, h, List.append_nil]
      rfl
  | @chunk stream stream' chunk content ending h hne _ ih =>
      -- one round appends the chunk, and the rest is read on top of it
      have hround : readChunk g (stream, acc) = .inl (stream', acc ++ chunk) := by
        rw [readChunk, h]
        exact if_neg hne
      rw [← List.append_assoc]
      exact (ih (acc ++ chunk)).of_step hround

theorem reads_of_iterate {fuel : ℕ} {r : Except Exc (List UInt8)}
    (h : Loop.iterate (readChunk g) fuel (stream, acc) = some r) :
    ∃ content ending, Reads g stream content ending ∧ r = outcome ending (acc ++ content) := by
  induction fuel generalizing stream acc with
  | zero => cases h
  | succ fuel ih =>
      rw [Loop.iterate, readChunk] at h
      -- the round that was run decides how the stream goes on
      cases hread : g.read1 decompressChunkSize stream with
      | error e =>
          simp only [hread] at h
          refine ⟨[], some e, .raised hread, ?_⟩
          rw [List.append_nil]
          exact (Option.some.inj h).symm
      | ok result =>
          rcases result with ⟨chunk, stream'⟩
          by_cases hne : chunk = []
          · subst hne
            simp only [hread, if_true] at h
            refine ⟨[], none, .done hread, ?_⟩
            rw [List.append_nil]
            exact (Option.some.inj h).symm
          · simp only [hread, if_neg hne] at h
            rcases ih h with ⟨content, ending, hreads, hr⟩
            refine ⟨chunk ++ content, ending, .chunk hread hne hreads, ?_⟩
            rw [hr, List.append_assoc]

/-- `decompress` returns what the stream delivers before it ends or breaks. -/
theorem decompress_terminates_iff : Terminates (fun fuel => decompress g fuel body) (.ok content) ↔
    ∃ ending, Reads g (g.opened body) content ending ∧ ending ≠ some .zlibError := by
  constructor
  · rintro ⟨fuel, hfuel⟩
    rcases reads_of_iterate (hfuel fuel (Nat.le_refl fuel)) with ⟨c, ending, hreads, houtcome⟩
    rcases outcome_eq_ok_iff.1 houtcome.symm with ⟨rfl, hending⟩
    exact ⟨ending, hreads, hending⟩
  · rintro ⟨ending, hreads, hending⟩
    have h := terminates_of_reads hreads []
    rw [outcome_eq_ok_iff.2 ⟨List.nil_append content, hending⟩] at h
    exact h

/-! ## The markers -/

theorem find_of_firstSplit {sub front back : List UInt8} (h : Binary.FirstSplit sub raw front back) :
    find sub raw 0 = front.length := by
  rw [find, if_neg (by decide), Int.toNat_zero, List.drop_zero, Binary.find_of_firstSplit h]
  exact Int.zero_add _

/-- No end marker begins in a start marker. -/
theorem find_end_behind_start (tail : List UInt8) :
    Binary.find ikconfigEndMagic (ikconfigStartMagic ++ tail) =
      (Binary.find ikconfigEndMagic tail).map fun i => i + 8 := by
  simp [ikconfigStartMagic, ikconfigEndMagic, Binary.find, List.cons_prefix_cons, Function.comp_def]

/-- The end marker is searched from the start marker on. -/
theorem find_end_of_start {tail : List UInt8} (h : Binary.FirstSplit ikconfigStartMagic raw before tail) :
    find ikconfigEndMagic raw (before.length : ℤ) =
      ((Binary.find ikconfigEndMagic tail).map fun i => ((before.length + (i + 8) : ℕ) : ℤ)).getD (-1) := by
  have hdrop : raw.drop before.length = ikconfigStartMagic ++ tail := by
    rw [h.eq, List.append_assoc, List.drop_left]
  rw [find, if_neg (by omega), Int.toNat_natCast, hdrop, find_end_behind_start]
  cases Binary.find ikconfigEndMagic tail with
  | none => rfl
  | some i => rfl

theorem slice_append (front rest : List UInt8) (n : ℕ) :
    slice (front ++ rest) (front.length : ℤ) ((front.length + n : ℕ) : ℤ) = rest.take n := by
  rw [slice, Int.toNat_natCast, Int.toNat_natCast, List.take_length_add_append, List.drop_left]

/-- What follows the bytes does not make them gzip data. -/
theorem magic_prefix_iff :
    gzipMagic <+: body ++ ikconfigEndMagic ++ after ↔ gzipMagic <+: body := by
  rcases body with _ | ⟨x, _ | ⟨y, body⟩⟩ <;>
    simp [gzipMagic, ikconfigEndMagic, List.cons_prefix_cons]

theorem tryExtractingKconfig_of_pair (h : FirstPair raw before body after) (fuel : ℕ) :
    tryExtractingKconfig g fuel raw =
      if gzipMagic <+: body then decompress g fuel body else some (.ok []) := by
  have hstart : find ikconfigStartMagic raw 0 = before.length := find_of_firstSplit h.start
  have hend : find ikconfigEndMagic raw (before.length : ℤ) = ((before.length + (body.length + 8) : ℕ) : ℤ) := by
    rw [find_end_of_start h.start, Binary.find_of_firstSplit h.stop]
    rfl
  have hlength : ((before.length : ℤ) + ikconfigStartMagic.length) =
      ((before ++ ikconfigStartMagic).length : ℤ) := by
    rw [List.length_append, Int.natCast_add]
  have hmagic : slice raw ((before.length : ℤ) + ikconfigStartMagic.length)
      ((before.length : ℤ) + ikconfigStartMagic.length + gzipMagic.length) =
        (body ++ ikconfigEndMagic ++ after).take 2 := by
    rw [hlength, h.start.eq]
    exact slice_append _ _ 2
  have hbody : slice raw ((before.length : ℤ) + ikconfigStartMagic.length)
      ((before.length + (body.length + 8) : ℕ) : ℤ) = body := by
    have hstop : before.length + (body.length + 8) = (before ++ ikconfigStartMagic).length + body.length := by
      rw [List.length_append]
      exact Nat.add_comm body.length 8 ▸ (Nat.add_assoc _ _ _).symm
    rw [hlength, h.start.eq, hstop, slice_append, List.append_assoc, List.take_left]
  have hcond : slice raw ((before.length : ℤ) + ikconfigStartMagic.length)
      ((before.length : ℤ) + ikconfigStartMagic.length + gzipMagic.length) ≠ gzipMagic ↔
        ¬ gzipMagic <+: body := by
    rw [hmagic, ← magic_prefix_iff, List.prefix_iff_eq_take]
    exact not_congr eq_comm
  rw [tryExtractingKconfig]
  simp only [hstart, hend]
  -- both offsets are there, and the two slices are what `FirstPair` says
  rw [if_neg (by omega), hbody]
  by_cases hprefix : gzipMagic <+: body
  · rw [if_neg (fun hne => hcond.1 hne hprefix), if_pos hprefix]
  · rw [if_pos (hcond.2 hprefix), if_neg hprefix]

theorem tryExtractingKconfig_of_no_pair (h : ∀ before body after, ¬ FirstPair raw before body after)
    (fuel : ℕ) : tryExtractingKconfig g fuel raw = some (.ok []) := by
  cases hfind : Binary.find ikconfigStartMagic raw with
  | none =>
      have hstart : find ikconfigStartMagic raw 0 = -1 := by
        rw [find, if_neg (by decide), Int.toNat_zero, List.drop_zero, hfind]
      rw [tryExtractingKconfig]
      simp only [hstart]
      exact if_pos (.inl (by decide))
  | some i =>
      rcases Binary.exists_firstSplit hfind with ⟨before, tail, hsplit, -⟩
      cases hfindEnd : Binary.find ikconfigEndMagic tail with
      | none =>
          have hend := find_end_of_start hsplit
          rw [hfindEnd] at hend
          rw [tryExtractingKconfig]
          simp only [find_of_firstSplit hsplit, hend]
          exact if_pos (.inr (Int.negSucc_lt_zero 0))
      | some j =>
          rcases Binary.exists_firstSplit hfindEnd with ⟨body, after, hstop, -⟩
          have heq := hstop.eq
          subst heq
          exact absurd ⟨hsplit, hstop⟩ (h before body after)

/-- Where a stream is embedded there is a pair of markers. -/
theorem Embedded.exists_firstPair (h : Embedded g raw content) :
    ∃ before body after, FirstPair raw before body after := by
  rcases h with ⟨front, stream, gap, back, hraw, -, -⟩
  have hstartRaw : raw = front ++ (ikconfigStartMagic ++ (stream ++ gap ++ ikconfigEndMagic ++ back)) := by
    rw [hraw]
    simp only [List.append_assoc]
  have hendRaw : raw = (front ++ ikconfigStartMagic ++ stream ++ gap) ++ (ikconfigEndMagic ++ back) := by
    rw [hraw]
    simp only [List.append_assoc]
  rcases Binary.exists_find_le front (List.prefix_append ikconfigStartMagic
    (stream ++ gap ++ ikconfigEndMagic ++ back)) with ⟨i, hi, hfind⟩
  rw [← hstartRaw] at hfind
  rcases Binary.exists_firstSplit hfind with ⟨before, tail, hstart, rfl⟩
  -- the first start marker ends before this end marker begins
  have hle : (before ++ ikconfigStartMagic).length ≤ (front ++ ikconfigStartMagic ++ stream ++ gap).length := by
    simp only [List.length_append]
    omega
  have htail : tail = (front ++ ikconfigStartMagic ++ stream ++ gap).drop (before ++ ikconfigStartMagic).length ++
      (ikconfigEndMagic ++ back) := by
    rw [← List.drop_append_of_le_length hle, ← hendRaw, hstart.eq, List.drop_left]
  rcases Binary.exists_find_le ((front ++ ikconfigStartMagic ++ stream ++ gap).drop
    (before ++ ikconfigStartMagic).length) (List.prefix_append ikconfigEndMagic back) with ⟨j, -, hfindEnd⟩
  rw [← htail] at hfindEnd
  rcases Binary.exists_firstSplit hfindEnd with ⟨body, after, hstop, -⟩
  have heq := hstop.eq
  subst heq
  exact ⟨before, body, after, hstart, hstop⟩

/-! ## What is returned -/

theorem returns_of_no_pair (h : ∀ before body after, ¬ FirstPair raw before body after) :
    Returns g raw [] :=
  ⟨0, fun fuel _ => tryExtractingKconfig_of_no_pair h fuel⟩

/-- Of an image with a pair of markers the code returns what can be read between the first
of them. -/
theorem returns_iff_readable (h : FirstPair raw before body after) :
    Returns g raw content ↔ Readable g body content := by
  rw [Returns]
  simp only [tryExtractingKconfig_of_pair h]
  by_cases hmagic : gzipMagic <+: body
  · simp only [if_pos hmagic]
    rw [decompress_terminates_iff, Readable]
    simp only [hmagic, not_true_eq_false, false_and, true_and, false_or]
  · -- the bytes are no gzip data, and nothing is read
    simp only [if_neg hmagic]
    have hready : Terminates (fun _ => some (Except.ok [] : Except Exc (List UInt8))) (.ok []) :=
      ⟨0, fun _ _ => rfl⟩
    constructor
    · exact fun hreturns => .inl ⟨hmagic, (Except.ok.inj (hready.unique hreturns)).symm⟩
    · rintro (⟨-, rfl⟩ | ⟨hgzip, -⟩)
      · exact hready
      · exact absurd hgzip hmagic

theorem extracts_of_embedded (hreturns : Returns g raw content) (hembedded : Embedded g raw content) :
    Extracts g raw :=
  ⟨fun _ => ⟨content, hembedded, hreturns⟩, fun hnone => absurd ⟨content, hembedded⟩ hnone⟩

theorem Extracts.exists_returns (h : Extracts g raw) : ∃ content, Returns g raw content := by
  by_cases hfound : ∃ content, Embedded g raw content
  · rcases h.found hfound with ⟨content, -, hreturns⟩
    exact ⟨content, hreturns⟩
  · exact ⟨[], h.absent hfound⟩

/-- The kernel's own layout: between the first markers stands a complete stream alone. -/
theorem extracts_of_complete (hpair : FirstPair raw before body after) (h : Complete g body content) :
    Extracts g raw := by
  have hreadable : Readable g body content := .inr ⟨h.1, none, h.2, nofun⟩
  have hno : ¬ ikconfigEndMagic <:+: body := by
    rintro ⟨front, back, rfl⟩
    apply hpair.stop.first front.length
    · simp only [List.length_append, ikconfigEndMagic, List.length_cons, List.length_nil]
      omega
    · simp only [List.append_assoc, List.drop_left]
      exact List.prefix_append _ _
  refine extracts_of_embedded ((returns_iff_readable hpair).2 hreadable) ⟨before, body, [], after, ?_, hno, h⟩
  rw [hpair.start.eq]
  simp only [List.append_assoc, List.nil_append]

/-- The code extracts what an image holds if and only if the first start marker and the
first end marker behind it decide what that is. -/
theorem try_extracting_kconfig_iff (g : Gzip σ) (raw : List UInt8) :
    Extracts g raw ↔ FirstPairDecides g raw := by
  by_cases hpair : ∃ before body after, FirstPair raw before body after
  · rcases hpair with ⟨before, body, after, hpair⟩
    constructor
    · intro hextracts
      refine .inr ⟨before, body, after, hpair, ?_⟩
      -- what the code returns can be read between the markers
      by_cases hfound : ∃ content, Embedded g raw content
      · rcases hextracts.found hfound with ⟨content, hembedded, hreturns⟩
        exact .inl ⟨content, (returns_iff_readable hpair).1 hreturns, hembedded⟩
      · exact .inr ⟨(returns_iff_readable hpair).1 (hextracts.absent hfound), not_exists.1 hfound⟩
    · rintro (hno | ⟨before, body, after, hpair, hdecides⟩)
      · exact absurd hpair (hno before body after)
      rcases hdecides with ⟨content, hreadable, hembedded⟩ | ⟨hreadable, hno⟩
      · exact extracts_of_embedded ((returns_iff_readable hpair).2 hreadable) hembedded
      · have hreturns := (returns_iff_readable hpair).2 hreadable
        exact ⟨fun ⟨content, hembedded⟩ => absurd hembedded (hno content), fun _ => hreturns⟩
  · -- without a pair nothing is embedded either
    have hno : ∀ before body after, ¬ FirstPair raw before body after :=
      fun before body after h => hpair ⟨before, body, after, h⟩
    refine iff_of_true ⟨?_, fun _ => returns_of_no_pair hno⟩ (.inl hno)
    rintro ⟨content, hembedded⟩
    exact absurd hembedded.exists_firstPair hpair

/-- The gzip stream of `b'y'`. -/
def sampleStream : List UInt8 :=
  [0x1f, 0x8b, 8, 0, 0, 0, 0, 0, 2, 3, 0xab, 4, 0, 0x15, 0x26, 0xdb, 0xfb, 1, 0, 0, 0]

/-- That stream without its checksum and size. -/
def truncatedStream : List UInt8 := sampleStream.take 13

/-- The same header, with a block of a type that does not exist. -/
def corruptStream : List UInt8 := [0x1f, 0x8b, 8, 0, 0, 0, 0, 0, 2, 3, 7]

/-- The package on these three. A stream is what is left to deliver and the exception at
its end. -/
def sampleGzip : Gzip (List UInt8 × Option Exc) where
  opened raw :=
    if raw = sampleStream then ([0x79], none)
    else if raw = truncatedStream then ([0x79], some .eofError)
    else if raw = corruptStream then ([], some .zlibError)
    else ([], some .osError)
  read1 size stream :=
    match stream with
    | ([], none) => .ok ([], stream)
    | ([], some e) => .error e
    | (pending, ending) => .ok (pending.take size, (pending.drop size, ending))

/-- The markers as plain constants before the stream. -/
def decoyImage : List UInt8 :=
  ikconfigStartMagic ++ [0] ++ ikconfigEndMagic ++ [0] ++ ikconfigStartMagic ++ sampleStream ++ ikconfigEndMagic

def corruptImage : List UInt8 := ikconfigStartMagic ++ corruptStream ++ ikconfigEndMagic

def truncatedImage : List UInt8 := ikconfigStartMagic ++ truncatedStream ++ ikconfigEndMagic

theorem sample_reads {stream : List UInt8 × Option Exc} (h : Reads sampleGzip stream content ending) :
    stream = (content, ending) := by
  induction h with
  | @done stream stream' h =>
      rcases stream with ⟨_ | ⟨x, pending⟩, _ | e⟩ <;>
        simp [sampleGzip, decompressChunkSize] at h ⊢
  | @raised stream e h =>
      rcases stream with ⟨_ | ⟨x, pending⟩, _ | e'⟩ <;> simp [sampleGzip] at h ⊢
      exact h
  | @chunk stream stream' chunk content ending h hne _ ih =>
      rcases stream with ⟨_ | ⟨x, pending⟩, e⟩
      · rcases e with _ | e
        · simp only [sampleGzip] at h
          cases h
          exact absurd rfl hne
        · cases h
      · simp only [sampleGzip, Except.ok.injEq, Prod.mk.injEq] at h
        rcases h with ⟨rfl, rfl⟩
        cases ih
        rw [List.take_append_drop]

theorem sample_complete {stream : List UInt8} (h : Complete sampleGzip stream content) :
    stream = sampleStream ∧ content = [0x79] := by
  have hopened := sample_reads h.2
  simp only [sampleGzip] at hopened
  split_ifs at hopened with hsample
  · exact ⟨hsample, (Prod.mk.inj hopened).1.symm⟩
  all_goals cases hopened

/-- A decoy of the markers hides the stream, a block of a wrong type raises a `zlib.error`,
and of a truncated stream the first part is returned. -/
theorem try_extracting_kconfig_wrong :
    (¬ Extracts sampleGzip decoyImage ∧ Returns sampleGzip decoyImage []) ∧
    (¬ Extracts sampleGzip corruptImage ∧ ∀ content, ¬ Returns sampleGzip corruptImage content) ∧
    (¬ Extracts sampleGzip truncatedImage ∧ Returns sampleGzip truncatedImage [0x79]) := by
  have hdecoy : FirstPair decoyImage [] [0]
      ([0] ++ ikconfigStartMagic ++ sampleStream ++ ikconfigEndMagic) :=
    ⟨⟨rfl, fun j hj => absurd hj (Nat.not_lt_zero j)⟩, ⟨rfl, by decide⟩⟩
  have hcorrupt : FirstPair corruptImage [] corruptStream [] :=
    ⟨⟨rfl, fun j hj => absurd hj (Nat.not_lt_zero j)⟩, ⟨rfl, by decide⟩⟩
  have htruncated : FirstPair truncatedImage [] truncatedStream [] :=
    ⟨⟨rfl, fun j hj => absurd hj (Nat.not_lt_zero j)⟩, ⟨rfl, by decide⟩⟩
  have hnothing : Returns sampleGzip decoyImage [] :=
    (returns_iff_readable hdecoy).2 (.inl ⟨by decide, rfl⟩)
  have hraises : ∀ content, ¬ Returns sampleGzip corruptImage content := by
    intro content hreturns
    rcases (returns_iff_readable hcorrupt).1 hreturns with ⟨hno, -⟩ | ⟨-, ending, hreads, hending⟩
    · exact hno (by decide)
    · exact hending (Prod.mk.inj (sample_reads hreads)).2.symm
  have hpart : Returns sampleGzip truncatedImage [0x79] := by
    have hreads : Reads sampleGzip ([0x79], some .eofError) ([0x79] ++ []) (some .eofError) :=
      .chunk rfl (by decide) (.raised rfl)
    exact (returns_iff_readable htruncated).2 (.inr ⟨by decide, some .eofError, hreads, by decide⟩)
  refine ⟨⟨fun h => ?_, hnothing⟩, ⟨fun h => ?_, hraises⟩, ⟨fun h => ?_, hpart⟩⟩
  · have hreads : Reads sampleGzip ([0x79], none) ([0x79] ++ []) none := .chunk rfl (by decide) (.done rfl)
    have hembedded : Embedded sampleGzip decoyImage [0x79] :=
      ⟨ikconfigStartMagic ++ [0] ++ ikconfigEndMagic ++ [0], sampleStream, [], [], rfl, by decide, by decide,
        hreads⟩
    rcases h.found ⟨[0x79], hembedded⟩ with ⟨content, ⟨_, _, _, _, -, -, hcomplete⟩, hreturns⟩
    obtain rfl := (sample_complete hcomplete).2
    cases hreturns.unique hnothing
  · rcases h.exists_returns with ⟨content, hreturns⟩
    exact hraises content hreturns
  · have hnone : ¬ ∃ content, Embedded sampleGzip truncatedImage content := by
      rintro ⟨content, front, stream, gap, back, hraw, -, hcomplete⟩
      obtain rfl := (sample_complete hcomplete).1
      -- the image is too short for the whole stream
      have hlength := congrArg List.length hraw
      simp only [List.length_append] at hlength
      have himage : truncatedImage.length = 29 := rfl
      have hstream : sampleStream.length = 21 := rfl
      have hstart : ikconfigStartMagic.length = 8 := rfl
      have hend : ikconfigEndMagic.length = 8 := rfl
      omega
    cases (h.absent hnone).unique hpart

end FactCore.KernelConfig
