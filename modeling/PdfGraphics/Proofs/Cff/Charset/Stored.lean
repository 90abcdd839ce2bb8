import PdfGraphics.Proofs.Bytes.Number
import PdfGraphics.Proofs.Cff.Charset.Lookup
/-!
Charsets that a font stores.

Whatever the format, the bytes come to one list of identifiers, with one for each glyph after the
first. Reading fails where the bytes end before the list does, or where a run leaves the identifiers
that there are.
-/

namespace PdfGraphics.Cff.Charset

namespace Run

-- The identifiers that the runs name, which need not fit into 16 bits.
def writtenOut (runs : List Run) : List Nat :=
  runs.flatMap fun run => List.range' run.first.toNat (run.left.toNat + 1)

-- The bytes of a run, with `width` of them for the number of identifiers left.
def spell (width : Nat) (run : Run) : List UInt8 :=
  Bytes.spell 2 run.first.toNat ++ Bytes.spell width run.left.toNat

-- The runs as far as they name `missing` glyphs, with the last one cut there.
def cut : Nat → List Run → List Run
  | _, [] => []
  | missing, run :: runs =>
    if missing = 0 then
      []
    else
      let left := min run.left.toNat (missing - 1)
      ⟨run.first, .ofNat left⟩ :: cut (missing - (left + 1)) runs

variable {format : UInt8} {width missing n : Nat} {run : Run} {read runs : List Run}
  {bytes rest : List UInt8}

theorem writtenOut_cons :
    writtenOut (run :: runs) =
      List.range' run.first.toNat (run.left.toNat + 1) ++ writtenOut runs := by
  simp [writtenOut]

theorem toNat_ofNat_min (run : Run) (n : Nat) :
    (UInt16.ofNat (min run.left.toNat n)).toNat = min run.left.toNat n :=
  UInt16.toNat_ofNat_of_lt' (Nat.lt_of_le_of_lt (Nat.min_le_left ..) run.left.toNat_lt)

theorem take_writtenOut_cons (h : missing ≠ 0) :
    let left := min run.left.toNat (missing - 1)
    (writtenOut (run :: runs)).take missing =
      List.range' run.first.toNat (left + 1) ++ (writtenOut runs).take (missing - (left + 1)) := by
  intro left
  rw [writtenOut_cons, List.take_append, List.length_range']
  -- Either the run is whole, or it is the last one.
  by_cases hl : run.left.toNat + 1 ≤ missing
  case pos => rw [List.take_range'_of_length_le hl, show left = run.left.toNat by omega]
  case neg =>
    rw [List.take_range'_of_length_ge (by omega), show left + 1 = missing by omega,
      show missing - (run.left.toNat + 1) = 0 by omega, Nat.sub_self]

theorem writtenOut_cut : writtenOut (cut missing runs) = (writtenOut runs).take missing := by
  induction runs generalizing missing with
  | nil              => simp [cut, writtenOut]
  | cons run runs ih =>
    by_cases hm : missing = 0
    case pos => simp [cut, hm, writtenOut]
    case neg =>
      rw [take_writtenOut_cons hm, cut, if_neg hm, writtenOut_cons, ih]
      simp only [toNat_ofNat_min]

-- What was small enough to be stored is still so.
theorem left_lt_of_mem_cut (h : ∀ run ∈ runs, run.left.toNat < n) (hr : run ∈ cut missing runs) :
    run.left.toNat < n := by
  induction runs generalizing missing with
  | nil               => cases hr
  | cons run' runs ih =>
    have ⟨hrun, hruns⟩ := List.forall_mem_cons.mp h
    rw [cut] at hr
    split at hr
    case isTrue => cases hr
    case isFalse =>
      cases List.mem_cons.mp hr with
      | inl he =>
        rw [he, toNat_ofNat_min]
        omega
      | inr hr => exact ih hruns hr

-- Reading goes through the runs until there are enough, or one is wrong.
theorem readRuns_spell (h : ∀ run ∈ runs, run.left.toNat < 256 ^ width) :
    readRuns format width read missing (runs.flatMap (spell width) ++ rest) =
      if ∀ sid ∈ (writtenOut runs).take missing, sid < 65536 then
        readRuns format width ((cut missing runs).reverse ++ read)
          (missing - (writtenOut runs).length) rest
      else
        .error (.invalidCharset format) := by
  induction runs generalizing read missing with
  | nil              => simp [cut, writtenOut]
  | cons run runs ih =>
    have ⟨hrun, hruns⟩ := List.forall_mem_cons.mp h
    by_cases hm : missing = 0
    case pos => simp [hm, cut, readRuns]
    case neg =>
      have hfirst : run.first.toNat < 256 ^ 2 := run.first.toNat_lt
      rw [readRuns, if_neg hm]
      simp only [List.flatMap_cons, spell, List.append_assoc, Bytes.number?_spell hfirst,
        Bytes.number?_spell hrun, UInt16.ofNat_toNat]
      rw [take_writtenOut_cons hm, cut, if_neg hm]
      generalize hl : min run.left.toNat (missing - 1) = left
      by_cases hp : run.first.toNat + left < 65536
      case neg =>
        rw [if_neg hp, if_neg]
        exact fun hs => hp (hs _ (by simp))
      case pos =>
        have hs : ∀ sid ∈ List.range' run.first.toNat (left + 1), sid < 65536 := fun sid hs => by
          rw [List.mem_range'_1] at hs
          omega
        have hn : missing - (writtenOut (run :: runs)).length =
            missing - (left + 1) - (writtenOut runs).length := by
          rw [writtenOut_cons, List.length_append, List.length_range']
          omega
        simp only [if_pos hp, ih hruns, List.forall_mem_append, and_iff_right hs, hn,
          List.reverse_cons, List.append_assoc, List.singleton_append]

-- Any bytes are those of a run, if there are as many.
theorem exists_spell (hw : width ≤ 2) (hl : 2 + width ≤ bytes.length) :
    ∃ run rest, bytes = spell width run ++ rest ∧ run.left.toNat < 256 ^ width := by
  have spelled (front : List UInt8) (h : front.length ≤ 2) :
      (UInt16.ofNat (Bytes.value front)).toNat = Bytes.value front := by
    refine UInt16.toNat_ofNat_of_lt' (Nat.lt_of_lt_of_le (Bytes.value_lt front) ?_)
    exact Nat.pow_le_pow_right (by decide) h
  have hf : (bytes.take 2).length = 2 := by
    rw [List.length_take]
    omega
  have hn : ((bytes.drop 2).take width).length = width := by
    rw [List.length_take, List.length_drop]
    omega
  have hlt := Bytes.value_lt ((bytes.drop 2).take width)
  have hsf := Bytes.spell_value (bytes.take 2)
  have hsn := Bytes.spell_value ((bytes.drop 2).take width)
  have hf2 := spelled _ (Nat.le_of_eq hf)
  have hn2 := spelled _ (Nat.le_trans (Nat.le_of_eq hn) hw)
  rw [hf] at hsf
  rw [hn] at hsn hlt
  refine ⟨⟨.ofNat (Bytes.value (bytes.take 2)), .ofNat (Bytes.value ((bytes.drop 2).take width))⟩,
    (bytes.drop 2).drop width, ?_, ?_⟩
  case _ => simp only [spell, hf2, hn2, hsf, hsn, List.append_assoc, List.take_append_drop]
  case _ => rwa [hn2]

-- Runs are read until there are enough of them, or the bytes do not hold another one.
theorem exists_runs (width missing : Nat) (bytes : List UInt8) (hw : width ≤ 2) :
    ∃ runs rest, bytes = runs.flatMap (spell width) ++ rest ∧
      (∀ run ∈ runs, run.left.toNat < 256 ^ width) ∧
      (missing ≤ (writtenOut runs).length ∨ rest.length < 2 + width) := by
  induction missing using Nat.strongRecOn generalizing bytes with
  | _ missing ih =>
    by_cases hm : missing = 0
    case pos => exact ⟨[], bytes, rfl, nofun, .inl (by omega)⟩
    case neg =>
      by_cases hl : bytes.length < 2 + width
      case pos => exact ⟨[], bytes, rfl, nofun, .inr hl⟩
      case neg =>
        have ⟨run, tail, hb, hrun⟩ := exists_spell hw (Nat.le_of_not_lt hl)
        have ⟨runs, rest, ht, hruns, hr⟩ := ih (missing - (run.left.toNat + 1)) (by omega) tail
        refine ⟨run :: runs, rest, by simp [hb, ht], List.forall_mem_cons.mpr ⟨hrun, hruns⟩,
          hr.imp_left fun hr => ?_⟩
        rw [writtenOut_cons, List.length_append, List.length_range']
        omega

-- Identifiers one by one are read as runs in which none is left.
theorem readRuns_zero :
    (readRuns format 0 read missing bytes).map (fun runs => listed (runs.map (·.first)).toArray) =
      (need (Bytes.numbersAfter 2 (read.map (·.first.toNat)) missing bytes) .unexpectedEof).map
        fun (sids, _) => listed (sids.map UInt16.ofNat).toArray := by
  induction missing generalizing read bytes with
  | zero =>
    simp [readRuns, Bytes.numbersAfter, need, Except.map, Function.comp_def]
  | succ missing ih =>
    rw [readRuns, if_neg (Nat.succ_ne_zero missing), Bytes.numbersAfter]
    cases hn : Bytes.number? 2 bytes with
    | none   => rfl
    | some r =>
      obtain ⟨first, rest⟩ := r
      have hfirst : first < 65536 := Bytes.number?_lt hn
      have hleft : Bytes.number? 0 rest = some (0, rest) := rfl
      have hm : missing + 1 - (0 + 1) = missing := rfl
      simp only [hleft, Nat.zero_min, Nat.add_zero, hfirst, if_true, hm, ih, List.map_cons,
        UInt16.toNat_ofNat_of_lt' hfirst]

theorem readRuns_done : readRuns format width read 0 bytes = .ok read.reverse := by
  rw [readRuns, if_pos rfl]

theorem readRuns_short (hm : missing ≠ 0) (h : bytes.length < 2 + width) :
    readRuns format width read missing bytes = .error .unexpectedEof := by
  rw [readRuns, if_neg hm, Bytes.number?_eq]
  by_cases hf : 2 ≤ bytes.length
  case neg => rw [if_neg hf]
  case pos =>
    have hl : ¬width ≤ (bytes.drop 2).length := by
      rw [List.length_drop]
      omega
    simp only [if_pos hf, Bytes.number?_eq, if_neg hl]

theorem writtenOut_single (h : ∀ run ∈ runs, run.left.toNat < 1) :
    writtenOut runs = runs.map (·.first.toNat) := by
  induction runs with
  | nil              => rfl
  | cons run runs ih =>
    have ⟨hrun, hruns⟩ := List.forall_mem_cons.mp h
    rw [writtenOut_cons, ih hruns, Nat.lt_one_iff.mp hrun]
    rfl

-- The identifiers of glyphs are those of the runs written out, as far as they fit.
theorem sidAt?_eq (n : Nat) (runs : List Run) :
    sidAt? n runs = (writtenOut runs)[n]?.bind word16? := by
  induction runs generalizing n with
  | nil              => rfl
  | cons run runs ih =>
    rw [sidAt?, writtenOut_cons]
    split
    case isTrue h =>
      have hn := Nat.lt_succ_of_le h
      rw [List.getElem?_append_left (by rwa [List.length_range']), List.getElem?_range' hn]
      simp
    case isFalse h =>
      rw [ih, List.getElem?_append_right (by simp; omega), List.length_range']

end Run

open Run

-- The bytes begin with a format and with runs. Formats 0 to 2 have as many bytes for the number of
-- identifiers left as their own number says, so that none is left in format 0.
structure Stores (bytes : List UInt8) (format : UInt8) (runs : List Run) (rest : List UInt8) :
    Prop where
  known : format ≤ 2
  fits : ∀ run ∈ runs, run.left.toNat < 256 ^ format.toNat
  bytes : bytes = format :: (runs.flatMap (Run.spell format.toNat) ++ rest)

-- The identifiers that the bytes have for `missing` glyphs. More of the last run is not used.
def Describes (missing : Nat) (bytes : List UInt8) (sids : List UInt16) : Prop :=
  ∃ format runs rest, Stores bytes format runs rest ∧ sids.length = missing ∧
    sids.map UInt16.toNat = (writtenOut runs).take missing

-- There are no bytes for a format, or for another run that is still needed.
def RunsOut (missing : Nat) (bytes : List UInt8) : Prop :=
  bytes = [] ∨ ∃ format runs rest, Stores bytes format runs rest ∧ rest.length < 2 + format.toNat ∧
    (writtenOut runs).length < missing ∧ ∀ sid ∈ writtenOut runs, sid < 65536

-- The format is unknown, or a run leaves the identifiers that there are.
def Leaves (missing : Nat) (bytes : List UInt8) (format : UInt8) : Prop :=
  (2 < format ∧ ∃ rest, bytes = format :: rest) ∨
    ∃ runs rest, Stores bytes format runs rest ∧ ∃ sid ∈ (writtenOut runs).take missing, 65536 ≤ sid

-- The charsets that list identifiers. Runs list them without a gap, and none is too large.
inductive Lists (sids : List UInt16) : Charset → Prop
  | listed : Lists sids (listed sids.toArray)
  | shortRuns {runs : List Run} (h : writtenOut runs = sids.map UInt16.toNat) :
    Lists sids (shortRuns runs)
  | longRuns {runs : List Run} (h : writtenOut runs = sids.map UInt16.toNat) :
    Lists sids (longRuns runs)

-- Each glyph after the first has its identifier from the list, and there are no more glyphs.
structure Assigns (glyphCount : Nat) (sids : List UInt16) (charset : Charset) : Prop where
  lists : Lists sids charset
  notdef : charset.sidOfGlyph? 0 = some 0
  named : ∀ glyph : UInt16, 1 ≤ glyph.toNat → glyph.toNat < glyphCount →
    ∃ sid, sids[glyph.toNat - 1]? = some sid ∧ charset.sidOfGlyph? glyph = some sid
  unnamed : ∀ glyph : UInt16, max glyphCount 1 ≤ glyph.toNat → charset.sidOfGlyph? glyph = none

-- The charset that a known format makes of its runs.
def ofRuns (format : UInt8) (runs : List Run) : Charset :=
  match format with
  | 0 => listed (runs.map (·.first)).toArray
  | 1 => shortRuns runs
  | _ => longRuns runs

variable {missing glyphCount base : Nat} {format : UInt8} {runs : List Run} {sids : List UInt16}
  {bytes rest buffer : List UInt8} {charset : Charset} {glyph : UInt16}

theorem eq_of_known (h : format ≤ 2) : format = 0 ∨ format = 1 ∨ format = 2 := by
  simp only [UInt8.le_iff_toNat_le, UInt8.reduceToNat, ← UInt8.toNat_inj] at h ⊢
  omega

theorem readCustom_known (h : format ≤ 2) :
    readCustom missing (format :: bytes) =
      (readRuns format format.toNat [] missing bytes).map (ofRuns format) := by
  obtain rfl | rfl | rfl := eq_of_known h
  case inl     => exact (@readRuns_zero 0 missing [] bytes).symm
  case inr.inl => rfl
  case inr.inr => rfl

theorem readCustom_unknown (h : 2 < format) :
    readCustom missing (format :: bytes) = .error (.invalidCharset format) := by
  rw [readCustom] <;> rintro rfl <;> exact absurd h (by decide)

theorem lists_ofRuns (h : ∀ run ∈ runs, run.left.toNat < 256 ^ format.toNat)
    (hs : writtenOut runs = sids.map UInt16.toNat) : Lists sids (ofRuns format runs) := by
  unfold ofRuns
  split
  case h_1 =>
    have hr : runs.map (·.first) = sids := by
      rw [writtenOut_single h, ← Function.comp_def, ← List.map_map] at hs
      exact List.map_inj_right (fun _ _ => UInt16.toNat_inj.mp) |>.mp hs
    rw [hr]
    exact .listed
  case h_2 => exact .shortRuns hs
  case h_3 => exact .longRuns hs

-- Reading depends on the runs that are stored in front, and on what comes after too few of them.
theorem Stores.readCustom_eq (h : Stores bytes format runs rest) (missing : Nat) :
    readCustom missing bytes =
      if ∀ sid ∈ (writtenOut runs).take missing, sid < 65536 then
        (readRuns format format.toNat (cut missing runs).reverse
          (missing - (writtenOut runs).length) rest).map (ofRuns format)
      else
        .error (.invalidCharset format) := by
  rw [h.bytes, readCustom_known h.known, readRuns_spell h.fits, List.append_nil]
  split <;> rfl

theorem Describes.length_eq (h : Describes missing bytes sids) : sids.length = missing := by
  obtain ⟨_, _, _, _, hl, _⟩ := h
  exact hl

theorem Describes.readCustom (h : Describes missing bytes sids) :
    ∃ charset, readCustom missing bytes = .ok charset ∧ Lists sids charset := by
  obtain ⟨format, runs, rest, hr, hl, hs⟩ := h
  have hlt : ∀ sid ∈ (writtenOut runs).take missing, sid < 65536 := by
    rw [← hs]
    simpa using fun sid _ => sid.toNat_lt
  have henough : missing - (writtenOut runs).length = 0 := by
    have := congrArg List.length hs
    rw [List.length_map, List.length_take, hl] at this
    omega
  have hfits : ∀ run ∈ cut missing runs, run.left.toNat < 256 ^ format.toNat :=
    fun _ => left_lt_of_mem_cut hr.fits
  refine ⟨ofRuns format (cut missing runs), ?_, lists_ofRuns hfits (by rw [writtenOut_cut, hs])⟩
  rw [hr.readCustom_eq, if_pos hlt, henough, readRuns_done, List.reverse_reverse]
  rfl

theorem RunsOut.readCustom (h : RunsOut missing bytes) :
    readCustom missing bytes = .error .unexpectedEof := by
  obtain rfl | ⟨format, runs, rest, hr, hshort, hfew, hlt⟩ := h
  case inl => rfl
  case inr =>
    rw [hr.readCustom_eq, List.take_of_length_le (Nat.le_of_lt hfew), if_pos hlt,
      readRuns_short (by omega) hshort]
    rfl

theorem Leaves.readCustom (h : Leaves missing bytes format) :
    readCustom missing bytes = .error (.invalidCharset format) := by
  obtain ⟨hf, rest, rfl⟩ | ⟨runs, rest, hr, sid, hm, hs⟩ := h
  case inl => exact readCustom_unknown hf
  case inr =>
    rw [hr.readCustom_eq, if_neg]
    exact fun hlt => absurd (hlt sid hm) (Nat.not_lt.mpr hs)

-- The bytes either describe identifiers, or they run out, or they leave what there is.
theorem describes_or_runsOut_or_leaves (missing : Nat) (bytes : List UInt8) :
    (∃ sids, Describes missing bytes sids) ∨ RunsOut missing bytes ∨
      ∃ format, Leaves missing bytes format := by
  cases bytes with
  | nil               => exact .inr (.inl (.inl rfl))
  | cons format bytes =>
    by_cases hf : format ≤ 2
    case neg => exact .inr (.inr ⟨format, .inl ⟨UInt8.not_le.mp hf, bytes, rfl⟩⟩)
    case pos =>
      have ⟨runs, rest, hb, hfits, hend⟩ :=
        exists_runs format.toNat missing bytes (UInt8.le_iff_toNat_le.mp hf)
      have hr : Stores (format :: bytes) format runs rest := ⟨hf, hfits, by rw [hb]⟩
      by_cases hlt : ∀ sid ∈ (writtenOut runs).take missing, sid < 65536
      case neg =>
        simp only [not_forall, Nat.not_lt] at hlt
        obtain ⟨sid, hm, hs⟩ := hlt
        exact .inr (.inr ⟨format, .inr ⟨runs, rest, hr, sid, hm, hs⟩⟩)
      case pos =>
        by_cases hl : missing ≤ (writtenOut runs).length
        case pos =>
          refine .inl ⟨((writtenOut runs).take missing).map .ofNat, format, runs, rest, hr, ?_, ?_⟩
          case _ => rw [List.length_map, List.length_take, Nat.min_eq_left hl]
          case _ =>
            rw [List.map_map]
            refine (List.map_congr_left fun sid hm => ?_).trans (List.map_id _)
            exact UInt16.toNat_ofNat_of_lt' (hlt sid hm)
        case neg =>
          have hfew := Nat.lt_of_not_le hl
          rw [List.take_of_length_le (Nat.le_of_lt hfew)] at hlt
          exact .inr (.inl (.inr ⟨format, runs, rest, hr, hend.resolve_left hl, hfew, hlt⟩))

-- What is read says which of these it is.
theorem readCustom_cases (missing : Nat) (bytes : List UInt8) :
    (∃ sids charset, Describes missing bytes sids ∧ readCustom missing bytes = .ok charset) ∨
      (RunsOut missing bytes ∧ readCustom missing bytes = .error .unexpectedEof) ∨
      ∃ format, Leaves missing bytes format ∧
        readCustom missing bytes = .error (.invalidCharset format) := by
  obtain ⟨sids, hs⟩ | ho | ⟨format, hl⟩ := describes_or_runsOut_or_leaves missing bytes
  case inl     =>
    have ⟨charset, hr, _⟩ := hs.readCustom
    exact .inl ⟨sids, charset, hs, hr⟩
  case inr.inl => exact .inr (.inl ⟨ho, ho.readCustom⟩)
  case inr.inr => exact .inr (.inr ⟨format, hl, hl.readCustom⟩)

theorem Lists.sidOfGlyph?_eq (h : Lists sids charset) (glyph : UInt16) :
    charset.sidOfGlyph? glyph = if glyph = 0 then some 0 else sids[glyph.toNat - 1]? := by
  have written {runs : List Run} (h : writtenOut runs = sids.map UInt16.toNat) (n : Nat) :
      sidAt? n runs = sids[n]? := by
    rw [sidAt?_eq, h, List.getElem?_map]
    cases sids[n]? with
    | none     => rfl
    | some sid => exact word16?_eq_some.mpr rfl
  cases h with
  | listed                   => rw [sidOfGlyph?, List.getElem?_toArray]
  | shortRuns h | longRuns h => rw [sidOfGlyph?, written h]

theorem Lists.assigns (h : Lists sids charset) (hl : sids.length = glyphCount - 1) :
    Assigns glyphCount sids charset where
  lists := h
  notdef := h.sidOfGlyph?_eq 0
  named glyph hg hn := by
    have hi : glyph.toNat - 1 < sids.length := by omega
    rw [h.sidOfGlyph?_eq, if_neg (ne_zero_of_toNat_pos hg)]
    exact ⟨sids[glyph.toNat - 1], List.getElem?_eq_getElem hi, List.getElem?_eq_getElem hi⟩
  unnamed glyph hg := by
    rw [h.sidOfGlyph?_eq, if_neg (ne_zero_of_toNat_pos (by omega))]
    exact List.getElem?_eq_none (by omega)

-- Which glyph has an identifier follows from which identifiers glyphs have.
theorem glyphOfSid?_congr {charset' : Charset}
    (h : ∀ glyph, charset'.sidOfGlyph? glyph = charset.sidOfGlyph? glyph) (sid : UInt16) :
    charset'.glyphOfSid? sid = charset.glyphOfSid? sid :=
  Option.ext fun glyph => by simp only [glyphOfSid?_eq_some, h]

-- The list itself, stored identifier by identifier.
theorem describes_spelled (sids : List UInt16) (rest : List UInt8) :
    Describes sids.length (0 :: (sids.flatMap (fun sid => Bytes.spell 2 sid.toNat) ++ rest))
      sids := by
  let runs : List Run := sids.map fun sid => ⟨sid, 0⟩
  have hleft : ∀ run ∈ runs, run.left.toNat < 1 := by simp [runs]
  have hsids : writtenOut runs = sids.map UInt16.toNat := by
    rw [writtenOut_single hleft, List.map_map]
    rfl
  refine ⟨0, runs, rest, ⟨by decide, hleft, ?_⟩, rfl, ?_⟩
  case _ => simp [runs, Run.spell, Bytes.spell, List.flatMap_map]
  case _ => rw [hsids, List.take_of_length_le (by simp)]

theorem read_custom (hb : 3 ≤ base) :
    read buffer base glyphCount = readCustom (glyphCount - 1) (buffer.drop base) := by
  rw [read] <;> rintro rfl <;> exact absurd hb (by decide)

-- A charset that a font stores gives each glyph one identifier, as its bytes describe them, or else
-- reading says what is wrong with the bytes. The format makes no difference.
theorem read_assigns (hb : 3 ≤ base) (buffer : List UInt8) (glyphCount : Nat) :
    (∀ sids, Describes (glyphCount - 1) (buffer.drop base) sids →
      ∃ charset, read buffer base glyphCount = .ok charset ∧ Assigns glyphCount sids charset ∧
        ∀ buffer' base' rest, 3 ≤ base' →
          buffer'.drop base' = 0 :: (sids.flatMap (fun sid => Bytes.spell 2 sid.toNat) ++ rest) →
            ∃ charset', read buffer' base' glyphCount = .ok charset' ∧
              (∀ glyph, charset'.sidOfGlyph? glyph = charset.sidOfGlyph? glyph) ∧
              ∀ sid, charset'.glyphOfSid? sid = charset.glyphOfSid? sid) ∧
    (∀ charset, read buffer base glyphCount = .ok charset →
      ∃ sids, Describes (glyphCount - 1) (buffer.drop base) sids) ∧
    (read buffer base glyphCount = .error .unexpectedEof ↔
      RunsOut (glyphCount - 1) (buffer.drop base)) ∧
    (∀ format, read buffer base glyphCount = .error (.invalidCharset format) ↔
      Leaves (glyphCount - 1) (buffer.drop base) format) ∧
    ∀ e, read buffer base glyphCount = .error e →
      e = .unexpectedEof ∨ ∃ format, e = .invalidCharset format := by
  simp only [read_custom hb]
  have hcases := readCustom_cases (glyphCount - 1) (buffer.drop base)
  refine ⟨fun sids h => ?_, fun charset hr => ?_, ⟨fun hr => ?_, RunsOut.readCustom⟩,
    fun format => ⟨fun hr => ?_, Leaves.readCustom⟩, fun e hr => ?_⟩
  case _ =>
    have ⟨charset, hr, hl⟩ := h.readCustom
    refine ⟨charset, hr, hl.assigns h.length_eq, fun buffer' base' rest hb' hbytes => ?_⟩
    have ⟨charset', hr', hl'⟩ := (describes_spelled sids rest).readCustom
    have hglyph (glyph : UInt16) : charset'.sidOfGlyph? glyph = charset.sidOfGlyph? glyph := by
      rw [hl'.sidOfGlyph?_eq, hl.sidOfGlyph?_eq]
    rw [read_custom hb', hbytes, ← h.length_eq]
    exact ⟨charset', hr', hglyph, glyphOfSid?_congr hglyph⟩
  case _ =>
    obtain ⟨sids, _, hs, _⟩ | ⟨_, he⟩ | ⟨_, _, he⟩ := hcases
    case inl               => exact ⟨sids, hs⟩
    case inr.inl | inr.inr => cases hr.symm.trans he
  case _ =>
    obtain ⟨_, _, _, he⟩ | ⟨ho, _⟩ | ⟨_, _, he⟩ := hcases
    case inl | inr.inr     => cases hr.symm.trans he
    case inr.inl           => exact ho
  case _ =>
    obtain ⟨_, _, _, he⟩ | ⟨_, he⟩ | ⟨_, hl, he⟩ := hcases
    case inl | inr.inl     => cases hr.symm.trans he
    case inr.inr           =>
      cases hr.symm.trans he
      exact hl
  case _ =>
    obtain ⟨_, _, _, he⟩ | ⟨_, he⟩ | ⟨format, _, he⟩ := hcases
    case inl               => cases hr.symm.trans he
    case inr.inl           => exact .inl (Except.error.inj (hr.symm.trans he))
    case inr.inr           => exact .inr ⟨format, Except.error.inj (hr.symm.trans he)⟩

-- A run of which the last identifier has no glyph, a list that ends too early, and a run that goes
-- past the last identifier.
theorem read_assigns_runs :
    (∃ charset, read [238, 238, 238, 1, 0, 34, 2, 0, 66, 1] 3 5 = .ok charset ∧
      charset.sidOfGlyph? 3 = some 36 ∧ charset.sidOfGlyph? 4 = some 66 ∧
      charset.sidOfGlyph? 5 = none ∧
      ∃ charset', read [1, 1, 1, 1, 0, 0, 34, 0, 35, 0, 36, 0, 66] 4 5 = .ok charset' ∧
        charset'.glyphOfSid? 67 = charset.glyphOfSid? 67) ∧
    read [0, 0, 0, 0, 0, 1] 3 3 = .error .unexpectedEof ∧
    read [0, 0, 0, 1, 255, 255, 5] 3 7 = .error (.invalidCharset 1) := by
  have h : (3 : Nat) ≤ 3 := by decide
  have hs : Describes 4 [1, 0, 34, 2, 0, 66, 1] [34, 35, 36, 66] :=
    ⟨1, [⟨34, 2⟩, ⟨66, 1⟩], [], ⟨by decide, by decide, by decide⟩, rfl, by decide⟩
  have ho : RunsOut 2 [0, 0, 1] :=
    .inr ⟨0, [⟨1, 0⟩], [], ⟨by decide, by decide, by decide⟩, by decide, by decide, by decide⟩
  have hl : Leaves 6 [1, 255, 255, 5] 1 :=
    .inr ⟨[⟨65535, 5⟩], [], ⟨by decide, by decide, by decide⟩, 65536, by decide, by decide⟩
  obtain ⟨charset, hr, ha, hspelled⟩ :=
    (read_assigns h [238, 238, 238, 1, 0, 34, 2, 0, 66, 1] 5).left _ hs
  obtain ⟨charset', hr', _, hglyph⟩ :=
    hspelled [1, 1, 1, 1, 0, 0, 34, 0, 35, 0, 36, 0, 66] 4 [] (by decide) (by decide)
  obtain ⟨_, h₃, hs₃⟩ := ha.named 3 (by decide) (by decide)
  obtain ⟨_, h₄, hs₄⟩ := ha.named 4 (by decide) (by decide)
  have heof := (read_assigns h [0, 0, 0, 0, 0, 1] 3).right.right.left.mpr ho
  have hinvalid := ((read_assigns h [0, 0, 0, 1, 255, 255, 5] 7).right.right.right.left 1).mpr hl
  exact ⟨⟨charset, hr, hs₃.trans h₃.symm, hs₄.trans h₄.symm, ha.unnamed 5 (by decide), charset',
    hr', hglyph 67⟩, heof, hinvalid⟩

end PdfGraphics.Cff.Charset
