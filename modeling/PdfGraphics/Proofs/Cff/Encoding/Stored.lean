import Mathlib.Data.List.Basic
import PdfGraphics.Proofs.Bytes.Number
import PdfGraphics.Proofs.Cff.Encoding.Lookup
/-!
Encodings that a font stores.

Whatever the format, the bytes come to one list of codes and to the supplements behind it. Reading
fails where the bytes end before them, or where a run leaves the codes that there are.
-/

namespace PdfGraphics

-- Items of `size` bytes are in front, as many as are counted or as the bytes hold.
theorem Bytes.exists_items {α : Type} {p : α → Prop} {spell : α → List UInt8} {size : Nat}
    (h : ∀ front : List UInt8, front.length = size → ∃ a, p a ∧ spell a = front) (count : Nat)
    (bytes : List UInt8) :
    ∃ (items : List α) (missing : Nat) (rest : List UInt8), bytes = items.flatMap spell ++ rest ∧
      items.length + missing = count ∧ (∀ a ∈ items, p a) ∧ (missing = 0 ∨ rest.length < size) := by
  induction count generalizing bytes with
  | zero          => exact ⟨[], 0, bytes, rfl, rfl, nofun, .inl rfl⟩
  | succ count ih =>
    by_cases hl : bytes.length < size
    case pos => exact ⟨[], count + 1, bytes, rfl, Nat.zero_add _, nofun, .inr hl⟩
    case neg =>
      have ⟨a, hp, ha⟩ := h (bytes.take size) (by rw [List.length_take]; omega)
      have ⟨items, missing, rest, hb, hc, hps, hm⟩ := ih (bytes.drop size)
      refine ⟨a :: items, missing, rest, ?_, ?_, List.forall_mem_cons.mpr ⟨hp, hps⟩, hm⟩
      case _ => rw [List.flatMap_cons, ha, List.append_assoc, ← hb, List.take_append_drop]
      case _ => rw [List.length_cons]; omega

namespace Cff.Encoding

variable {format : UInt8} {width missing : Nat} {bytes rest : List UInt8}

namespace Run

variable {run : Run} {runs : List Run}

-- The bytes of a run, with `width` of them for the number of codes left.
def spell (width : Nat) (run : Run) : List UInt8 :=
  run.first :: Bytes.spell width run.left.toNat

theorem exists_spell (hw : width ≤ 1) (front : List UInt8) (hl : front.length = 1 + width) :
    ∃ run : Run, run.left.toNat < 256 ^ width ∧ run.spell width = front := by
  obtain rfl | rfl : width = 0 ∨ width = 1 := by omega
  case inl =>
    have ⟨first, hf⟩ := List.length_eq_one_iff.mp hl
    exact ⟨⟨first, 0⟩, Nat.one_pos, hf.symm⟩
  case inr =>
    have ⟨first, left, hf⟩ := List.length_eq_two.mp hl
    exact ⟨⟨first, left⟩, left.toNat_lt, by simp [spell, Bytes.spell, hf]⟩

theorem writtenOut_single (h : ∀ run ∈ runs, run.left.toNat < 1) :
    writtenOut runs = (runs.map (·.first)).map UInt8.toNat := by
  induction runs with
  | nil              => rfl
  | cons run runs ih =>
    have ⟨hrun, hruns⟩ := List.forall_mem_cons.mp h
    rw [writtenOut_cons, ih hruns, Nat.lt_one_iff.mp hrun]
    rfl

-- So many runs of so many codes are not enough to run out of glyph numbers.
theorem length_writtenOut_le (runs : List Run) : (writtenOut runs).length ≤ 256 * runs.length := by
  induction runs with
  | nil              => exact Nat.le_refl 0
  | cons run runs ih =>
    have := run.left.toNat_lt
    rw [writtenOut_cons, List.length_append, List.length_range', List.length_cons]
    omega

end Run

open Run

-- The bytes of a supplement.
def Supplement.spell (s : Supplement) : List UInt8 :=
  s.code :: Bytes.spell 2 s.sid.toNat

theorem Supplement.exists_spell (front : List UInt8) (hl : front.length = 3) :
    ∃ s : Supplement, s.spell = front := by
  have ⟨code, b₁, b₂, hf⟩ := List.length_eq_three.mp hl
  have hs := Bytes.spell_value [b₁, b₂]
  have hlt : Bytes.value [b₁, b₂] < 65536 := by simpa using Bytes.value_lt [b₁, b₂]
  refine ⟨⟨code, .ofNat (Bytes.value [b₁, b₂])⟩, ?_⟩
  rw [Supplement.spell, UInt16.toNat_ofNat_of_lt' hlt, hf]
  exact congrArg (code :: ·) hs

/-! What the bytes hold. -/

-- The bytes begin with a format, a number of runs and runs, of which `missing` more are announced.
-- Without its high bit a format, 0 or 1, says how many bytes a run has for the number of codes left,
-- so that none is left in format 0.
structure Stores (bytes : List UInt8) (format : UInt8) (runs : List Run) (missing : Nat)
    (rest : List UInt8) : Prop where
  known : format.toNat % 128 ≤ 1
  fits : ∀ run ∈ runs, run.left.toNat < 256 ^ (format.toNat % 128)
  count : runs.length + missing < 256
  bytes : bytes = format :: UInt8.ofNat (runs.length + missing) ::
    (runs.flatMap (Run.spell (format.toNat % 128)) ++ rest)

-- The high bit of the format announces supplements. Then the bytes begin with their number and with
-- supplements, of which `missing` more are announced.
inductive Supplies (format : UInt8) (bytes : List UInt8) :
    List Supplement → Nat → List UInt8 → Prop
  | unannounced (h : format < 128) : Supplies format bytes [] 0 bytes
  | announced {supplements : List Supplement} {missing : Nat} {rest : List UInt8}
      (h : 128 ≤ format) (count : supplements.length + missing < 256)
      (hb : bytes = UInt8.ofNat (supplements.length + missing) ::
        (supplements.flatMap Supplement.spell ++ rest)) :
      Supplies format bytes supplements missing rest

-- The codes and supplements that the bytes have.
def Describes (bytes : List UInt8) (codes : List UInt8) (supplements : List Supplement) : Prop :=
  ∃ format runs tail rest, Stores bytes format runs 0 tail ∧
    writtenOut runs = codes.map UInt8.toNat ∧ Supplies format tail supplements 0 rest

-- There are no bytes for the number of supplements, or for another one that is announced.
def SupplementsRunOut (format : UInt8) (bytes : List UInt8) : Prop :=
  128 ≤ format ∧ (bytes = [] ∨ ∃ supplements missing rest,
    Supplies format bytes supplements missing rest ∧ missing ≠ 0 ∧ rest.length < 3)

-- There are no bytes for a format, for the number of runs, for another run that is announced, or for
-- the supplements.
def RunsOut (bytes : List UInt8) : Prop :=
  bytes = [] ∨ (∃ format : UInt8, format.toNat % 128 ≤ 1 ∧ bytes = [format]) ∨
    ∃ format runs missing rest, Stores bytes format runs missing rest ∧
      (∀ code ∈ writtenOut runs, code < 256) ∧
      (missing ≠ 0 ∧ rest.length < 1 + format.toNat % 128 ∨
        missing = 0 ∧ SupplementsRunOut format rest)

-- The format is unknown, or a run leaves the codes that there are.
def Leaves (bytes : List UInt8) (format : UInt8) : Prop :=
  (1 < format.toNat % 128 ∧ ∃ rest, bytes = format :: rest) ∨
    ∃ runs missing rest, Stores bytes format runs missing rest ∧ ∃ code ∈ writtenOut runs, 256 ≤ code

/-! Reading them. -/

variable {runs : List Run} {supplements : List Supplement} {codes : List UInt8}

-- Reads as many runs as are announced in a known format.
def readStored (format : UInt8) (count : Nat) (bytes : List UInt8) :
    Except DecodeError (List Run × List UInt8) :=
  if format.toNat % 128 = 0 then
    (need (Bytes.take? count bytes) .unexpectedEof).map fun (codes, rest) =>
      (codes.map (⟨·, 0⟩), rest)
  else
    readRuns format count bytes

-- The encoding that a known format makes of its runs.
def ofRuns (format : UInt8) (runs : List Run) (supplements : List Supplement) : Encoding :=
  if format.toNat % 128 = 0 then
    listed (runs.map (·.first)) supplements
  else
    ranged runs supplements

theorem readCustom_known (h : format.toNat % 128 ≤ 1) (count : UInt8) :
    readCustom (format :: count :: bytes) =
      (readStored format count.toNat bytes).bind fun (runs, rest) =>
        (readSupplements format rest).map (ofRuns format runs) := by
  unfold readStored ofRuns readCustom
  obtain h | h : format.toNat % 128 = 0 ∨ format.toNat % 128 = 1 := by omega
  case inl =>
    simp only [h, if_true, readCodes]
    cases Bytes.take? count.toNat bytes with
    | none   => rfl
    | some r =>
      have hr : (r.1.map fun code => (⟨code, 0⟩ : Run)).map (·.first) = r.1 := by
        simp [Function.comp_def]
      simp only [need, Option.elim_some, bind, Except.bind, Except.map, hr]
      cases readSupplements format r.2 <;> rfl
  case inr =>
    simp only [h, Nat.one_ne_zero, if_false]
    cases readRuns format count.toNat bytes with
    | error e => rfl
    | ok r    =>
      simp only [bind, Except.bind, Except.map]
      cases readSupplements format r.2 <;> rfl

theorem readCustom_unknown (h : 1 < format.toNat % 128) :
    readCustom (format :: bytes) = .error (.invalidEncoding format) := by
  simp only [readCustom]
  split <;> first | omega | rfl

theorem readStored_done (bytes : List UInt8) : readStored format 0 bytes = .ok ([], bytes) := by
  unfold readStored
  split
  case isTrue  => simp [Bytes.take?, need, Except.map]
  case isFalse => rfl

theorem readStored_spell {run : Run} (hk : format.toNat % 128 ≤ 1)
    (hrun : run.left.toNat < 256 ^ (format.toNat % 128)) (count : Nat) :
    readStored format (count + 1) (run.spell (format.toNat % 128) ++ bytes) =
      if run.first.toNat + run.left.toNat < 256 then
        (readStored format count bytes).map fun (runs, rest) => (run :: runs, rest)
      else
        .error (.invalidEncoding format) := by
  unfold readStored
  obtain h | h : format.toNat % 128 = 0 ∨ format.toNat % 128 = 1 := by omega
  case inl =>
    have hl : run.left = 0 := by
      rw [h] at hrun
      exact UInt8.toNat_inj.mp (Nat.lt_one_iff.mp hrun)
    have hlt : run.first.toNat + run.left.toNat < 256 := by
      rw [hl]
      exact run.first.toNat_lt
    have hr : (⟨run.first, 0⟩ : Run) = run := by rw [← hl]
    have hs : run.spell 0 ++ bytes = run.first :: bytes := rfl
    simp only [h, if_true, if_pos hlt, hs, Bytes.take?_eq, List.length_cons, Nat.add_le_add_iff_right]
    split <;> simp [need, Except.map, hr]
  case inr =>
    have hs : run.spell 1 ++ bytes = run.first :: run.left :: bytes := by
      simp [Run.spell, Bytes.spell]
    simp only [h, hs, readRuns]
    rfl

theorem readStored_short (hk : format.toNat % 128 ≤ 1) (hm : missing ≠ 0)
    (hl : rest.length < 1 + format.toNat % 128) :
    readStored format missing rest = .error .unexpectedEof := by
  have ⟨count, hc⟩ := Nat.exists_eq_succ_of_ne_zero hm
  unfold readStored
  rw [hc]
  obtain h | h : format.toNat % 128 = 0 ∨ format.toNat % 128 = 1 := by omega
  case inl =>
    rw [h] at hl
    obtain rfl : rest = [] := List.length_eq_zero_iff.mp (Nat.lt_one_iff.mp hl)
    simp [h, Bytes.take?_eq, need, Except.map]
  case inr =>
    simp only [h] at hl ⊢
    cases rest with
    | nil             => rfl
    | cons first rest =>
      rw [List.length_cons] at hl
      obtain rfl : rest = [] := List.length_eq_zero_iff.mp (by omega)
      rfl

-- Reading goes through the runs in front until one of them is wrong.
theorem readStored_spelled (hk : format.toNat % 128 ≤ 1)
    (h : ∀ run ∈ runs, run.left.toNat < 256 ^ (format.toNat % 128)) :
    readStored format (runs.length + missing)
        (runs.flatMap (Run.spell (format.toNat % 128)) ++ rest) =
      if ∀ code ∈ writtenOut runs, code < 256 then
        (readStored format missing rest).map fun (more, rest) => (runs ++ more, rest)
      else
        .error (.invalidEncoding format) := by
  induction runs with
  | nil              =>
    simp only [List.length_nil, Nat.zero_add, List.flatMap_nil, List.nil_append]
    rw [if_pos nofun]
    exact (congrFun Except.map_id _).symm
  | cons run runs ih =>
    have ⟨hrun, hruns⟩ := List.forall_mem_cons.mp h
    rw [List.length_cons, Nat.add_right_comm, List.flatMap_cons, List.append_assoc,
      readStored_spell hk hrun, ih hruns, writtenOut_cons]
    by_cases hp : run.first.toNat + run.left.toNat < 256
    case neg =>
      rw [if_neg hp, if_neg]
      exact fun hs => hp (hs _ (by simp))
    case pos =>
      have hs : ∀ code ∈ List.range' run.first.toNat (run.left.toNat + 1), code < 256 :=
        fun code hm => by
          rw [List.mem_range'_1] at hm
          omega
      simp only [if_pos hp, List.forall_mem_append, and_iff_right hs]
      split
      case isTrue  => cases readStored format missing rest <;> rfl
      case isFalse => rfl

theorem readSupplementList_short (hm : missing ≠ 0) (hl : rest.length < 3) :
    readSupplementList missing rest = .error .unexpectedEof := by
  have ⟨count, hc⟩ := Nat.exists_eq_succ_of_ne_zero hm
  rw [hc]
  cases rest with
  | nil             => rfl
  | cons code bytes =>
    have hb : ¬2 ≤ bytes.length := by
      rw [List.length_cons] at hl
      omega
    rw [readSupplementList, Bytes.number?_eq, if_neg hb]

theorem readSupplementList_spelled :
    readSupplementList (supplements.length + missing)
        (supplements.flatMap Supplement.spell ++ rest) =
      (readSupplementList missing rest).map (supplements ++ ·) := by
  induction supplements with
  | nil       =>
    simp only [List.length_nil, Nat.zero_add, List.flatMap_nil, List.nil_append]
    exact (congrFun Except.map_id _).symm
  | cons s supplements ih =>
    have hsid : s.sid.toNat < 256 ^ 2 := s.sid.toNat_lt
    rw [List.length_cons, Nat.add_right_comm, List.flatMap_cons, List.append_assoc,
      Supplement.spell, List.cons_append, readSupplementList]
    simp only [Bytes.number?_spell hsid, ih, UInt16.ofNat_toNat]
    cases readSupplementList missing rest <;> rfl

theorem lists_ofRuns (h : ∀ run ∈ runs, run.left.toNat < 256 ^ (format.toNat % 128))
    (hc : writtenOut runs = codes.map UInt8.toNat) (supplements : List Supplement) :
    Lists codes supplements (ofRuns format runs supplements) := by
  unfold ofRuns
  split
  case isTrue hf =>
    have hr : runs.map (·.first) = codes := by
      rw [hf] at h
      rw [writtenOut_single h] at hc
      exact List.map_inj_right (fun _ _ => UInt8.toNat_inj.mp) |>.mp hc
    rw [hr]
    exact .listed
  case isFalse   => exact .ranged hc

-- Reading depends on the runs in front, and on what comes after them.
theorem Stores.readCustom_eq (h : Stores bytes format runs missing rest) :
    readCustom bytes =
      if ∀ code ∈ writtenOut runs, code < 256 then
        (readStored format missing rest).bind fun (more, rest) =>
          (readSupplements format rest).map (ofRuns format (runs ++ more))
      else
        .error (.invalidEncoding format) := by
  rw [h.bytes, readCustom_known h.known, UInt8.toNat_ofNat_of_lt' h.count,
    readStored_spelled h.known h.fits]
  split
  case isTrue  => cases readStored format missing rest <;> rfl
  case isFalse => rfl

theorem Stores.readCustom_all (h : Stores bytes format runs 0 rest)
    (hlt : ∀ code ∈ writtenOut runs, code < 256) :
    readCustom bytes = (readSupplements format rest).map (ofRuns format runs) := by
  rw [h.readCustom_eq, if_pos hlt, readStored_done]
  simp only [Except.bind, List.append_nil]

theorem Supplies.readSupplements_eq (h : Supplies format bytes supplements missing rest) :
    readSupplements format bytes = (readSupplementList missing rest).map (supplements ++ ·) := by
  unfold readSupplements
  cases h with
  | unannounced h        => rw [if_pos h]; rfl
  | announced h count hb =>
    rw [if_neg (UInt8.not_lt.mpr h), hb]
    simp only [UInt8.toNat_ofNat_of_lt' count, readSupplementList_spelled]

theorem Supplies.readSupplements_all (h : Supplies format bytes supplements 0 rest) :
    readSupplements format bytes = .ok supplements := by
  rw [h.readSupplements_eq, readSupplementList]
  exact congrArg Except.ok (List.append_nil _)

theorem SupplementsRunOut.readSupplements (h : SupplementsRunOut format bytes) :
    readSupplements format bytes = .error .unexpectedEof := by
  obtain ⟨hf, rfl | ⟨supplements, missing, rest, hs, hm, hl⟩⟩ := h
  case inl => rw [Encoding.readSupplements, if_neg (UInt8.not_lt.mpr hf)]
  case inr =>
    rw [hs.readSupplements_eq, readSupplementList_short hm hl]
    rfl

theorem Describes.lt (h : writtenOut runs = codes.map UInt8.toNat) :
    ∀ code ∈ writtenOut runs, code < 256 := by
  rw [h]
  simpa using fun code _ => code.toNat_lt

-- The list is short enough for its glyphs to have numbers.
theorem Describes.length_lt (h : Describes bytes codes supplements) : codes.length < 65535 := by
  obtain ⟨_, runs, _, _, hr, hc, _⟩ := h
  have hl := length_writtenOut_le runs
  have hn := hr.count
  rw [hc, List.length_map] at hl
  omega

theorem Describes.readCustom (h : Describes bytes codes supplements) :
    ∃ encoding, readCustom bytes = .ok encoding ∧ Lists codes supplements encoding := by
  obtain ⟨format, runs, tail, rest, hr, hc, hs⟩ := h
  refine ⟨ofRuns format runs supplements, ?_, lists_ofRuns hr.fits hc supplements⟩
  rw [hr.readCustom_all (Describes.lt hc), hs.readSupplements_all]
  rfl

theorem RunsOut.readCustom (h : RunsOut bytes) : readCustom bytes = .error .unexpectedEof := by
  obtain rfl | ⟨format, hk, rfl⟩ | ⟨format, runs, missing, rest, hr, hlt, hend⟩ := h
  case inl     => rfl
  case inr.inl =>
    obtain hk | hk : format.toNat % 128 = 0 ∨ format.toNat % 128 = 1 := by omega
    case inl | inr =>
      simp only [Encoding.readCustom, hk]
      rfl
  case inr.inr =>
    obtain ⟨hm, hshort⟩ | ⟨rfl, hs⟩ := hend
    case inl =>
      rw [hr.readCustom_eq, if_pos hlt, readStored_short hr.known hm hshort]
      rfl
    case inr =>
      rw [hr.readCustom_all hlt, hs.readSupplements]
      rfl

theorem Leaves.readCustom (h : Leaves bytes format) :
    readCustom bytes = .error (.invalidEncoding format) := by
  obtain ⟨hf, rest, rfl⟩ | ⟨runs, missing, rest, hr, code, hm, hc⟩ := h
  case inl => exact readCustom_unknown hf
  case inr =>
    rw [hr.readCustom_eq, if_neg]
    exact fun hlt => absurd (hlt code hm) (Nat.not_lt.mpr hc)

-- Either all supplements are there, or they run out.
theorem supplies_or_runOut (format : UInt8) (bytes : List UInt8) :
    (∃ supplements rest, Supplies format bytes supplements 0 rest) ∨
      SupplementsRunOut format bytes := by
  by_cases hf : format < 128
  case pos => exact .inl ⟨[], bytes, .unannounced hf⟩
  case neg =>
    have hf := UInt8.not_lt.mp hf
    cases bytes with
    | nil               => exact .inr ⟨hf, .inl rfl⟩
    | cons count bytes =>
      have spelled (front : List UInt8) (hl : front.length = 3) :
          ∃ s : Supplement, True ∧ s.spell = front :=
        (Supplement.exists_spell front hl).imp fun _ => .intro trivial
      have ⟨supplements, missing, rest, hb, hc, _, hend⟩ :=
        Bytes.exists_items spelled count.toNat bytes
      have hs : Supplies format (count :: bytes) supplements missing rest :=
        .announced hf (hc ▸ count.toNat_lt) (by rw [hc, UInt8.ofNat_toNat, hb])
      by_cases hm : missing = 0
      case pos => exact .inl ⟨supplements, rest, hm ▸ hs⟩
      case neg => exact .inr ⟨hf, .inr ⟨supplements, missing, rest, hs, hm, hend.resolve_left hm⟩⟩

-- The bytes either describe codes and supplements, or they run out, or they leave what there is.
theorem describes_or_runsOut_or_leaves (bytes : List UInt8) :
    (∃ codes supplements, Describes bytes codes supplements) ∨ RunsOut bytes ∨
      ∃ format, Leaves bytes format := by
  match bytes with
  | []             => exact .inr (.inl (.inl rfl))
  | format :: rest =>
    by_cases hk : format.toNat % 128 ≤ 1
    case neg => exact .inr (.inr ⟨format, .inl ⟨Nat.lt_of_not_le hk, rest, rfl⟩⟩)
    case pos =>
      cases rest with
      | nil               => exact .inr (.inl (.inr (.inl ⟨format, hk, rfl⟩)))
      | cons count bytes =>
        have ⟨runs, missing, tail, hb, hc, hfits, hend⟩ :=
          Bytes.exists_items (Run.exists_spell hk) count.toNat bytes
        have hr : Stores (format :: count :: bytes) format runs missing tail :=
          ⟨hk, hfits, hc ▸ count.toNat_lt, by rw [hc, UInt8.ofNat_toNat, hb]⟩
        by_cases hlt : ∀ code ∈ writtenOut runs, code < 256
        case neg =>
          simp only [not_forall, Nat.not_lt] at hlt
          obtain ⟨code, hm, hle⟩ := hlt
          exact .inr (.inr ⟨format, .inr ⟨runs, missing, tail, hr, code, hm, hle⟩⟩)
        case pos =>
          by_cases hm : missing = 0
          case neg =>
            exact .inr (.inl (.inr (.inr
              ⟨format, runs, missing, tail, hr, hlt, .inl ⟨hm, hend.resolve_left hm⟩⟩)))
          case pos =>
            cases supplies_or_runOut format tail with
            | inl hs =>
              have ⟨supplements, rest, hs⟩ := hs
              refine .inl ⟨(writtenOut runs).map .ofNat, supplements, format, runs, tail, rest,
                hm ▸ hr, ?_, hs⟩
              rw [List.map_map]
              refine ((List.map_congr_left fun code hm => ?_).trans (List.map_id _)).symm
              exact UInt8.toNat_ofNat_of_lt' (hlt code hm)
            | inr ho =>
              exact .inr (.inl (.inr (.inr
                ⟨format, runs, missing, tail, hr, hlt, .inr ⟨hm, ho⟩⟩)))

-- What is read says which of these it is.
theorem readCustom_cases (bytes : List UInt8) :
    (∃ codes supplements encoding, Describes bytes codes supplements ∧
      readCustom bytes = .ok encoding) ∨
      (RunsOut bytes ∧ readCustom bytes = .error .unexpectedEof) ∨
      ∃ format, Leaves bytes format ∧ readCustom bytes = .error (.invalidEncoding format) := by
  obtain ⟨codes, supplements, hd⟩ | ho | ⟨format, hl⟩ := describes_or_runsOut_or_leaves bytes
  case inl     =>
    have ⟨encoding, hr, _⟩ := hd.readCustom
    exact .inl ⟨codes, supplements, encoding, hd, hr⟩
  case inr.inl => exact .inr (.inl ⟨ho, ho.readCustom⟩)
  case inr.inr => exact .inr (.inr ⟨format, hl, hl.readCustom⟩)

theorem read_custom {base : Nat} (hb : 2 ≤ base) (buffer : List UInt8) :
    read buffer base = readCustom (buffer.drop base) := by
  rw [read] <;> rintro rfl <;> exact absurd hb (by decide)

-- An encoding that a font stores shows for each code what the list of codes and the supplements say
-- that its bytes hold, or else reading says what is wrong with the bytes. The format makes no
-- difference.
theorem read_shows {base : Nat} (hb : 2 ≤ base) (buffer : List UInt8) :
    (∀ codes supplements, Describes (buffer.drop base) codes supplements →
      ∃ encoding, read buffer base = .ok encoding ∧
        (∀ charset code shown, encoding.glyph? charset code = shown ↔
          Shows codes supplements charset code shown) ∧
        ∀ charset code,
          encoding.glyph? charset code = (listed codes supplements).glyph? charset code) ∧
    (∀ encoding, read buffer base = .ok encoding →
      ∃ codes supplements, Describes (buffer.drop base) codes supplements) ∧
    (read buffer base = .error .unexpectedEof ↔ RunsOut (buffer.drop base)) ∧
    (∀ format, read buffer base = .error (.invalidEncoding format) ↔
      Leaves (buffer.drop base) format) ∧
    ∀ e, read buffer base = .error e → e = .unexpectedEof ∨ ∃ format, e = .invalidEncoding format := by
  rw [read_custom hb]
  have hcases := readCustom_cases (buffer.drop base)
  refine ⟨fun codes supplements h => ?_, fun encoding hr => ?_, ⟨fun hr => ?_, RunsOut.readCustom⟩,
    fun format => ⟨fun hr => ?_, Leaves.readCustom⟩, fun e hr => ?_⟩
  case _ =>
    have ⟨encoding, hr, hl⟩ := h.readCustom
    refine ⟨encoding, hr, fun charset code shown => ?_, hl.glyph?_eq⟩
    rw [hl.glyph?_eq, glyph?_eq_iff_shows h.length_lt]
  case _ =>
    obtain ⟨codes, supplements, _, hd, _⟩ | ⟨_, he⟩ | ⟨_, _, he⟩ := hcases
    case inl               => exact ⟨codes, supplements, hd⟩
    case inr.inl | inr.inr => cases hr.symm.trans he
  case _ =>
    obtain ⟨_, _, _, _, he⟩ | ⟨ho, _⟩ | ⟨_, _, he⟩ := hcases
    case inl | inr.inr     => cases hr.symm.trans he
    case inr.inl           => exact ho
  case _ =>
    obtain ⟨_, _, _, _, he⟩ | ⟨_, he⟩ | ⟨_, hl, he⟩ := hcases
    case inl | inr.inl     => cases hr.symm.trans he
    case inr.inr           =>
      cases hr.symm.trans he
      exact hl
  case _ =>
    obtain ⟨_, _, _, _, he⟩ | ⟨_, he⟩ | ⟨format, _, he⟩ := hcases
    case inl               => cases hr.symm.trans he
    case inr.inl           => exact .inl (Except.error.inj (hr.symm.trans he))
    case inr.inr           => exact .inr ⟨format, Except.error.inj (hr.symm.trans he)⟩

-- Two runs that overlap, with a supplement for a listed code and one for another; a run that is cut
-- short; a run that leaves the codes; supplements that are cut short.
theorem read_shows_runs :
    (∃ encoding, read [1, 1, 129, 2, 65, 2, 66, 3, 2, 66, 0, 34, 90, 0, 35] 2 = .ok encoding ∧
      encoding.glyph? .isoAdobe 66 = some 2 ∧ encoding.glyph? .isoAdobe 69 = some 7 ∧
      encoding.glyph? .isoAdobe 90 = some 35 ∧ encoding.glyph? .isoAdobe 91 = none) ∧
    read [1, 1, 1, 2, 65, 2, 66] 2 = .error .unexpectedEof ∧
    read [1, 1, 1, 2, 65, 200] 2 = .error (.invalidEncoding 1) ∧
    read [1, 1, 128, 1, 65, 2, 90, 0, 35, 91] 2 = .error .unexpectedEof := by
  have h : (2 : Nat) ≤ 2 := by decide
  have hd : Describes [129, 2, 65, 2, 66, 3, 2, 66, 0, 34, 90, 0, 35] [65, 66, 67, 66, 67, 68, 69]
      [⟨66, 34⟩, ⟨90, 35⟩] :=
    ⟨129, [⟨65, 2⟩, ⟨66, 3⟩], [2, 66, 0, 34, 90, 0, 35], [],
      ⟨by decide, by decide, by decide, by decide⟩, by decide,
      .announced (by decide) (by decide) (by decide)⟩
  have ho : RunsOut [1, 2, 65, 2, 66] :=
    .inr (.inr ⟨1, [⟨65, 2⟩], 1, [66], ⟨by decide, by decide, by decide, by decide⟩, by decide,
      .inl ⟨by decide, by decide⟩⟩)
  have hl : Leaves [1, 2, 65, 200] 1 :=
    .inr ⟨[⟨65, 200⟩], 1, [], ⟨by decide, by decide, by decide, by decide⟩, 256, by decide,
      by decide⟩
  have hs : RunsOut [128, 1, 65, 2, 90, 0, 35, 91] :=
    .inr (.inr ⟨128, [⟨65, 0⟩], 0, [2, 90, 0, 35, 91],
      ⟨by decide, by decide, by decide, by decide⟩, by decide,
      .inr ⟨rfl, by decide, .inr ⟨[⟨90, 35⟩], 1, [91],
        .announced (by decide) (by decide) (by decide), by decide, by decide⟩⟩⟩)
  obtain ⟨encoding, hr, hshows, _⟩ :=
    (read_shows h [1, 1, 129, 2, 65, 2, 66, 3, 2, 66, 0, 34, 90, 0, 35]).left _ _ hd
  refine ⟨⟨encoding, hr, (hshows ..).mpr ?_, (hshows ..).mpr ?_, (hshows ..).mpr ?_,
    (hshows ..).mpr ?_⟩, (read_shows h _).right.right.left.mpr ho,
    ((read_shows h _).right.right.right.left 1).mpr hl, (read_shows h _).right.right.left.mpr hs⟩
  case _ => exact .listed (show _ = [65] ++ 66 :: _ from rfl) (by decide) rfl
  case _ => exact .listed (show _ = [65, 66, 67, 66, 67, 68] ++ 69 :: _ from rfl) (by decide) rfl
  case _ => exact .supplement (by decide) (show _ = [⟨66, 34⟩] ++ _ :: _ from rfl) (by decide)
  case _ => exact .nothing (by decide) (by decide)

end Cff.Encoding

end PdfGraphics
