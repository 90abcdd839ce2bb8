import Mathlib.Data.Option.Basic
import PdfGraphics.Cff.Index
import PdfGraphics.Proofs.Bytes.Number
/-!
What a stored table says, and when it is an INDEX.

All of it is put in terms of positions in the buffer. The data is checked against the end of the
buffer only once, for the last offset; that every entry lies inside follows, since the offsets never
decrease.
-/

namespace PdfGraphics.Cff.Index

open Bytes

section Stored

variable (buffer : List UInt8) (offset : Nat)

def storedCount : Nat :=
  numberAt buffer offset 2

-- How many bytes each offset takes.
def storedWidth : Nat :=
  numberAt buffer (offset + 2) 1

-- Where the entry `i` starts; the entry before it ends there.
def storedOffset (i : Nat) : Nat :=
  numberAt buffer (offset + 3 + storedWidth buffer offset * i) (storedWidth buffer offset)

-- Offsets count from here, which is the byte before the data.
def storedBase : Nat :=
  offset + 2 + storedWidth buffer offset * (storedCount buffer offset + 1)

-- The rules for a table that has entries.
structure Table : Prop where
  width       : 1 ≤ storedWidth buffer offset ∧ storedWidth buffer offset ≤ 4
  offsetsFit  : offset + 3 + storedWidth buffer offset * (storedCount buffer offset + 1) ≤
    buffer.length
  first       : 1 ≤ storedOffset buffer offset 0
  ascending   : ∀ i < storedCount buffer offset,
    storedOffset buffer offset i ≤ storedOffset buffer offset (i + 1)
  dataFits    : storedBase buffer offset + storedOffset buffer offset (storedCount buffer offset) ≤
    buffer.length

def Legal : Prop :=
  offset + 2 ≤ buffer.length ∧ (storedCount buffer offset = 0 ∨ Table buffer offset)

-- The index has the entries that the table says, each with its place and its bytes.
structure Holds (index : Index) : Prop where
  count  : index.count = storedCount buffer offset
  entry  : ∀ i < storedCount buffer offset, ∃ bytes,
    index.entries[i]? = some (storedBase buffer offset + storedOffset buffer offset i, bytes) ∧
    index.get? i = some bytes ∧
    slice? buffer (storedBase buffer offset + storedOffset buffer offset i)
      (storedOffset buffer offset (i + 1) - storedOffset buffer offset i) = some bytes
  inside : ∀ i < storedCount buffer offset,
    storedOffset buffer offset i ≤ storedOffset buffer offset (i + 1) ∧
    storedBase buffer offset + storedOffset buffer offset (i + 1) ≤ buffer.length
  all    : index.toList.length = storedCount buffer offset ∧ ∀ i, index.toList[i]? = index.get? i
  size   : index.size =
    if storedCount buffer offset = 0 then
      2
    else
      2 + storedWidth buffer offset * (storedCount buffer offset + 1) +
        storedOffset buffer offset (storedCount buffer offset)

end Stored

-- The entries cut off where the offsets `at_ 0`, `at_ 1`, … say.
def cuts (base : Nat) (at_ : Nat → Nat) (count : Nat) (data : List UInt8) :
    List (Nat × List UInt8) :=
  (List.range count).map fun i =>
    (base + at_ i, (data.drop (at_ i - at_ 0)).take (at_ (i + 1) - at_ i))

-- The offsets never decrease, and the last one lies within `room` bytes of the first.
def Cuttable (at_ : Nat → Nat) (count room : Nat) : Prop :=
  (∀ i < count, at_ i ≤ at_ (i + 1)) ∧ at_ count ≤ at_ 0 + room

variable {at_ : Nat → Nat} {count room : Nat}

theorem le_of_ascending (h : ∀ i < count, at_ i ≤ at_ (i + 1)) {i j : Nat} (hij : i ≤ j)
    (hj : j ≤ count) : at_ i ≤ at_ j := by
  induction j with
  | zero      => exact Nat.le_of_eq (congrArg at_ (Nat.le_zero.mp hij))
  | succ j ih =>
    cases Nat.lt_or_eq_of_le hij with
    | inl hl => exact Nat.le_trans (ih (by omega) (by omega)) (h j (by omega))
    | inr he => exact Nat.le_of_eq (congrArg at_ he)

theorem cuttable_succ :
    Cuttable at_ (count + 1) room ↔
      at_ 0 ≤ at_ 1 ∧ at_ 1 - at_ 0 ≤ room ∧
        Cuttable (fun i => at_ (i + 1)) count (room - (at_ 1 - at_ 0)) := by
  simp only [Cuttable, Nat.forall_lt_succ_left, Nat.zero_add]
  constructor
  · intro ⟨⟨h₀, ha⟩, hl⟩
    have hall : ∀ i < count + 1, at_ i ≤ at_ (i + 1) := Nat.forall_lt_succ_left.mpr ⟨h₀, ha⟩
    have h₁ : at_ 1 ≤ at_ (count + 1) := le_of_ascending hall (by omega) (Nat.le_refl _)
    exact ⟨h₀, by omega, ha, by omega⟩
  · intro ⟨h₀, _, ha, hl⟩
    exact ⟨⟨h₀, ha⟩, by omega⟩

theorem cuts_succ (h : Cuttable at_ (count + 1) room) (base : Nat) (data : List UInt8) :
    cuts base at_ (count + 1) data =
      (base + at_ 0, data.take (at_ 1 - at_ 0)) ::
        cuts base (fun i => at_ (i + 1)) count (data.drop (at_ 1 - at_ 0)) := by
  simp only [cuts, List.range_succ_eq_map, List.map_cons, List.map_map, Nat.sub_self,
    List.drop_zero]
  congr 1
  apply List.map_congr_left
  intro i hi
  have hi := List.mem_range.mp hi
  have h₀ : at_ 0 ≤ at_ 1 := le_of_ascending h.left (by omega) (by omega)
  have h₁ : at_ 1 ≤ at_ (i + 1) := le_of_ascending h.left (by omega) (by omega)
  have : at_ 1 - at_ 0 + (at_ (i + 1) - at_ 1) = at_ (i + 1) - at_ 0 := by omega
  simp [List.drop_drop, this]

theorem cutAfter_of_cuttable {data : List UInt8} (h : Cuttable at_ count data.length) (base : Nat)
    (cut : Array (Nat × List UInt8)) :
    cutAfter base cut (at_ 0) ((List.range count).map fun i => at_ (i + 1)) data =
      some (cut ++ (cuts base at_ count data).toArray) := by
  induction count generalizing cut at_ data with
  | zero          => simp [cutAfter, cuts]
  | succ count ih =>
    have ⟨h₀, hd, hc⟩ := cuttable_succ.mp h
    have ht : take? (at_ 1 - at_ 0) data =
        some (data.take (at_ 1 - at_ 0), data.drop (at_ 1 - at_ 0)) := by
      rw [take?_eq, if_pos hd]
    have hi := ih (by rwa [List.length_drop]) (cut.push (base + at_ 0, data.take (at_ 1 - at_ 0)))
    rw [cuts_succ h, List.range_succ_eq_map]
    simp only [List.map_cons, List.map_map, cutAfter, Nat.not_lt_of_le h₀, if_false, ht]
    exact hi.trans (by simp)

theorem cuttable_of_cutAfter {base : Nat} {cut cut' : Array (Nat × List UInt8)} {data : List UInt8}
    (h : cutAfter base cut (at_ 0) ((List.range count).map fun i => at_ (i + 1)) data = some cut') :
    Cuttable at_ count data.length := by
  induction count generalizing cut at_ data with
  | zero          => exact ⟨nofun, Nat.le_add_right ..⟩
  | succ count ih =>
    rw [List.range_succ_eq_map] at h
    simp only [List.map_cons, List.map_map, cutAfter, take?_eq] at h
    split at h
    case isTrue  => cases h
    case isFalse h₀ =>
      by_cases hd : at_ 1 - at_ 0 ≤ data.length
      case neg => simp [hd] at h
      case pos =>
        simp only [hd, if_true] at h
        have hc : Cuttable (fun i => at_ (i + 1)) count _ := ih h
        rw [List.length_drop] at hc
        exact cuttable_succ.mpr ⟨Nat.le_of_not_lt h₀, hd, hc⟩

-- The index of a legal table.
def stored (buffer : List UInt8) (offset : Nat) : Index :=
  if storedCount buffer offset = 0 then
    {}
  else
    let at_ := storedOffset buffer offset
    let base := storedBase buffer offset
    let count := storedCount buffer offset
    {
      entries := (cuts base at_ count (buffer.drop (base + at_ 0))).toArray
      size := 2 + storedWidth buffer offset * (count + 1) + at_ count
    }

variable {buffer : List UInt8} {offset : Nat} {index : Index}

theorem Table.cuttable (t : Table buffer offset) :
    Cuttable (storedOffset buffer offset) (storedCount buffer offset)
      (buffer.drop (storedBase buffer offset + storedOffset buffer offset 0)).length := by
  have := t.dataFits
  rw [List.length_drop]
  exact ⟨t.ascending, by omega⟩

-- Where the entries end, in order.
def storedStops (buffer : List UInt8) (offset : Nat) : List Nat :=
  (List.range (storedCount buffer offset)).map fun i => storedOffset buffer offset (i + 1)

theorem getLastD_storedStops (buffer : List UInt8) (offset : Nat) :
    (storedStops buffer offset).getLastD (storedOffset buffer offset 0) =
      storedOffset buffer offset (storedCount buffer offset) := by
  cases h : storedCount buffer offset with
  | zero   => simp [storedStops, h]
  | succ n => simp [storedStops, h, List.range_succ]

-- The first two numbers, where they fit.
theorem number?_storedCount {rest : List UInt8} {n : Nat} :
    number? 2 (buffer.drop offset) = some (n, rest) ↔
      offset + 2 ≤ buffer.length ∧ storedCount buffer offset = n ∧
        buffer.drop (offset + 2) = rest :=
  number?_drop_eq_some (by decide)

theorem number?_storedWidth {rest : List UInt8} {n : Nat} :
    number? 1 (buffer.drop (offset + 2)) = some (n, rest) ↔
      offset + 3 ≤ buffer.length ∧ storedWidth buffer offset = n ∧
        buffer.drop (offset + 3) = rest :=
  number?_drop_eq_some (by decide)

theorem numbers?_storedOffset (h : 1 ≤ storedWidth buffer offset) {ns : List Nat}
    {rest : List UInt8} :
    numbers? (storedWidth buffer offset) (storedCount buffer offset + 1)
        (buffer.drop (offset + 3)) = some (ns, rest) ↔
      storedBase buffer offset + 1 ≤ buffer.length ∧
        storedOffset buffer offset 0 :: storedStops buffer offset = ns ∧
        buffer.drop (storedBase buffer offset + 1) = rest := by
  have he : offset + 3 + storedWidth buffer offset * (storedCount buffer offset + 1) =
      storedBase buffer offset + 1 := by
    rw [storedBase]
    omega
  rw [numbers?_drop_eq_some (Nat.mul_pos h (Nat.zero_lt_succ _)), he, List.range_succ_eq_map,
    List.map_cons, List.map_map]
  rfl

theorem take?_storedData (h : 1 ≤ storedOffset buffer offset 0) {skipped data : List UInt8} :
    take? (storedOffset buffer offset 0 - 1) (buffer.drop (storedBase buffer offset + 1)) =
        some (skipped, data) ↔
      storedOffset buffer offset 0 - 1 ≤ buffer.length - (storedBase buffer offset + 1) ∧
        (buffer.drop (storedBase buffer offset + 1)).take (storedOffset buffer offset 0 - 1) =
          skipped ∧
        buffer.drop (storedBase buffer offset + storedOffset buffer offset 0) = data := by
  have he : storedBase buffer offset + 1 + (storedOffset buffer offset 0 - 1) =
      storedBase buffer offset + storedOffset buffer offset 0 := by omega
  rw [take?_drop_eq_some, he]

theorem read_of_legal (h : Legal buffer offset) :
    read buffer offset = .ok (stored buffer offset) := by
  have hc := number?_storedCount.mpr ⟨h.left, rfl, rfl⟩
  rw [read, need_eq_ok, parse?]
  by_cases h₀ : storedCount buffer offset = 0
  case pos => simp [hc, h₀, stored]
  case neg =>
    have t := h.right.resolve_left h₀
    have hfit := t.offsetsFit
    have hdata := t.dataFits
    have hfirst := le_of_ascending t.ascending (Nat.zero_le _) (Nat.le_refl _)
    have hb : storedBase buffer offset + 1 ≤ buffer.length := by
      rw [storedBase]
      omega
    have hw := number?_storedWidth.mpr ⟨show offset + 3 ≤ buffer.length by omega, rfl, rfl⟩
    have ho := (numbers?_storedOffset t.width.left).mpr ⟨hb, rfl, rfl⟩
    have ht := (take?_storedData t.first).mpr ⟨by omega, rfl, rfl⟩
    have hcut := cutAfter_of_cuttable t.cuttable (storedBase buffer offset) #[]
    have hg := (Option.guard_eq_some' ()).mpr t.width
    have hg' := (Option.guard_eq_some' ()).mpr t.first
    rw [← storedStops, Array.empty_append] at hcut
    have hbase : offset + 2 + storedWidth buffer offset * (storedCount buffer offset + 1) =
      storedBase buffer offset := rfl
    simp only [hc, h₀, hw, hg, ho, hg', ht, hbase, hcut, getLastD_storedStops, stored, if_false,
      Option.bind_eq_bind, Option.bind_some, Option.pure_def]

theorem legal_of_read (h : read buffer offset = .ok index) : Legal buffer offset := by
  rw [read, need_eq_ok, parse?] at h
  simp only [Option.bind_eq_bind, Option.bind_eq_some_iff] at h
  have ⟨⟨n, bytes⟩, hc, h⟩ := h
  have ⟨hfit, hn, hb⟩ := number?_storedCount.mp hc
  subst hn hb
  refine ⟨hfit, ?_⟩
  split at h
  case isTrue h₀ => exact .inl h₀
  case isFalse h₀ =>
    simp only [Option.bind_eq_some_iff] at h
    have ⟨⟨w, bytes⟩, hw, _, hg, ⟨ns, bytes'⟩, ho, h⟩ := h
    have ⟨_, hn, hb⟩ := number?_storedWidth.mp hw
    subst hn hb
    have hg := (Option.guard_eq_some' _).mp hg
    have ⟨hfit, hn, hb⟩ := (numbers?_storedOffset hg.left).mp ho
    subst hn hb
    simp only [Option.bind_eq_some_iff] at h
    have ⟨_, hfirst, ⟨skipped, data⟩, ht, entries, hcut, _⟩ := h
    have hfirst := (Option.guard_eq_some' _).mp hfirst
    have ⟨hroom, _, hd⟩ := (take?_storedData hfirst).mp ht
    subst hd
    have hcut := cuttable_of_cutAfter hcut
    have hlast := hcut.right
    rw [List.length_drop] at hlast
    have hfit' : offset + 3 + storedWidth buffer offset * (storedCount buffer offset + 1) ≤
        buffer.length := by
      rw [storedBase] at hfit
      omega
    exact .inr ⟨hg, hfit', hfirst, hcut.left, by omega⟩

theorem toListFrom_eq (index : Index) (i : Nat) :
    index.toListFrom i = (index.entries.toList.map (·.2)).drop i := by
  fun_induction toListFrom index i with
  | case1 i h          =>
    have hi : index.entries.size ≤ i := by simpa [get?] using h
    rw [List.drop_eq_nil_of_le (by simpa using hi)]
  | case2 i entry h ih =>
    have hi := lt_count_of_get? h
    rw [count] at hi
    have hl : i < (index.entries.toList.map (·.2)).length := by simpa using hi
    have he : (index.entries.toList.map (·.2))[i] = entry := by simpa [get?, hi] using h
    rw [ih, ← he]
    exact (List.drop_eq_getElem_cons _).symm

theorem toList_eq (index : Index) : index.toList = index.entries.toList.map (·.2) :=
  toListFrom_eq index 0

theorem getElem?_toList (index : Index) (i : Nat) : index.toList[i]? = index.get? i := by
  simp [toList_eq, get?]

theorem length_toList (index : Index) : index.toList.length = index.count := by
  simp [toList_eq, count]

theorem Table.stop_le (t : Table buffer offset) {i : Nat} (h : i < storedCount buffer offset) :
    storedBase buffer offset + storedOffset buffer offset (i + 1) ≤ buffer.length := by
  have hi : i + 1 ≤ storedCount buffer offset := h
  have := le_of_ascending t.ascending hi (Nat.le_refl _)
  have := t.dataFits
  omega

theorem Table.entry (t : Table buffer offset) {i : Nat} (h : i < storedCount buffer offset) :
    ∃ bytes,
      (stored buffer offset).entries[i]? =
        some (storedBase buffer offset + storedOffset buffer offset i, bytes) ∧
      slice? buffer (storedBase buffer offset + storedOffset buffer offset i)
        (storedOffset buffer offset (i + 1) - storedOffset buffer offset i) = some bytes := by
  have hstop := t.stop_le h
  have hfirst := le_of_ascending t.ascending (Nat.zero_le i) (Nat.le_of_lt h)
  have hasc := t.ascending i h
  have hp : storedBase buffer offset + storedOffset buffer offset 0 +
      (storedOffset buffer offset i - storedOffset buffer offset 0) =
      storedBase buffer offset + storedOffset buffer offset i := by omega
  refine ⟨_, ?_, by rw [slice?_eq, if_pos (by omega)]⟩
  simp [stored, show storedCount buffer offset ≠ 0 by omega, cuts, h, List.drop_drop, hp]

theorem holds_stored (h : Legal buffer offset) : Holds buffer offset (stored buffer offset) := by
  have t (i : Nat) (hi : i < storedCount buffer offset) : Table buffer offset :=
    h.right.resolve_left (by omega)
  have hc : (stored buffer offset).count = storedCount buffer offset := by
    by_cases h₀ : storedCount buffer offset = 0 <;> simp [stored, count, cuts, h₀]
  exact {
    count := hc
    entry := fun i hi =>
      have ⟨bytes, he, hs⟩ := (t i hi).entry hi
      ⟨bytes, he, by simp [get?, he], hs⟩
    inside := fun i hi => ⟨(t i hi).ascending i hi, (t i hi).stop_le hi⟩
    all := ⟨by rw [length_toList, hc], getElem?_toList _⟩
    size := by by_cases h₀ : storedCount buffer offset = 0 <;> simp [stored, h₀]
  }

end PdfGraphics.Cff.Index
