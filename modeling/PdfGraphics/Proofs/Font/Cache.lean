import Mathlib.Data.List.Induction
import PdfGraphics.Font.Reader
import PdfGraphics.Proofs.Font.History
/-!
The cache of a session.

A request either leaves the cache as it is, or adds one glyph that was built without an error under
a name that had none. What is known of the cache after any number of requests follows from that.
-/

namespace PdfGraphics.Font

variable {font : Font} {limits : Charstring.Limits} {ref : GlyphRef} {glyph : UInt16}
  {name name' : String}

theorem build_name : (font.build limits glyph name).1.name = name := by
  simp only [build]
  split
  case h_1 => rfl
  case h_2 => rfl
  case h_3 => split <;> rfl

theorem lt_of_glyphIndex (h : font.glyphIndex ref = .ok glyph) :
    glyph.toNat < font.glyphCount := by
  have ⟨found, _, hw⟩ := Option.bind_eq_some_iff.mp (need_eq_ok.mp h)
  unfold within? at hw
  split at hw
  case isTrue hl => exact Option.some.inj hw ▸ hl
  case isFalse   => cases hw

theorem resolve_eq_ok :
    font.resolve ref = .ok (glyph, name) ↔
      font.glyphIndex ref = .ok glyph ∧ font.glyphName glyph = .ok name := by
  simp [resolve, bind_eq_ok, pure, Except.pure]

namespace Session

variable {s s' : Session} {h h' : Handle} {e : Option DecodeError} {r : Request}

-- What a session does that is asked for a glyph of the font.
inductive Obtains (s : Session) (glyph : UInt16) (name : String) :
    Handle → Option DecodeError → Session → Prop
  | cached {h : Handle} : (s.cache[name]? = some h) → Obtains s glyph name h none s
  | built {g : Glyph} :
    (s.cache[name]? = none) → (s.font.build s.limits glyph name = (g, none)) →
    Obtains s glyph name ⟨s.issued, g⟩ none
      { s with cache := s.cache.insert name ⟨s.issued, g⟩, issued := s.issued + 1 }
  | failed {g : Glyph} {e : DecodeError} :
    (s.cache[name]? = none) → (s.font.build s.limits glyph name = (g, some e)) →
    Obtains s glyph name ⟨s.issued, g⟩ (some e) { s with issued := s.issued + 1 }

theorem obtains (s : Session) (glyph : UInt16) (name : String) :
    Obtains s glyph name (s.obtain glyph name).1.1 (s.obtain glyph name).1.2
      (s.obtain glyph name).2 := by
  have hn := @build_name s.font s.limits glyph name
  simp only [obtain]
  split
  case h_1 hc => exact .cached hc
  case h_2 hc =>
    split <;> rename_i he
    case h_1 => simpa [issue, keep, hn] using Obtains.built hc (Prod.ext rfl he)
    case h_2 => exact .failed hc (Prod.ext rfl he)

theorem decode_of_ok (hr : s.font.resolve ref = .ok (glyph, name)) :
    s.decode ref =
      ((s.obtain glyph name).1.2.elim (.ok (s.obtain glyph name).1.1) .error,
        (s.obtain glyph name).2) := by
  simp [decode_eq, hr]

theorem decodeLossy_of_ok (hr : s.font.resolve ref = .ok (glyph, name)) :
    s.decodeLossy ref = s.obtain glyph name := by
  simp [decodeLossy, hr]

theorem decode_of_error {e : DecodeError} (hr : s.font.resolve ref = .error e) :
    s.decode ref = (.error e, s) := by
  simp [decode_eq, hr]

theorem decodeLossy_of_error {e : DecodeError} (hr : s.font.resolve ref = .error e) :
    s.decodeLossy ref =
      ((⟨s.issued, s.font.placeholder⟩, some e), { s with issued := s.issued + 1 }) := by
  simp [decodeLossy, hr, issue]

-- Both ways to ask for a glyph report the same error, or the same object where there is none, and
-- they leave the same cache.
theorem decode_eq_decodeLossy (s : Session) (ref : GlyphRef) :
    (s.decode ref).1 = (s.decodeLossy ref).1.2.elim (.ok (s.decodeLossy ref).1.1) .error ∧
      (s.decode ref).2.cache = (s.decodeLossy ref).2.cache := by
  cases hr : s.font.resolve ref with
  | error e  => simp [decode_of_error hr, decodeLossy_of_error hr]
  | ok found => simp [decode_of_ok hr, decodeLossy_of_ok hr]

-- What a session does that serves a request.
inductive Serves (s : Session) (r : Request) : Session → Prop
  | limited {limits : Charstring.Limits} :
    (r = .withLimits limits) → Serves s r (s.withLimits limits)
  | unresolved {ref : GlyphRef} {e : DecodeError} {issued : Nat} :
    (r.ref? = some ref) → (s.font.resolve ref = .error e) → (s.issued ≤ issued) →
    Serves s r { s with issued }
  | obtained {ref : GlyphRef} {glyph : UInt16} {name : String} {h : Handle}
    {e : Option DecodeError} {s' : Session} :
    (r.ref? = some ref) → (s.font.resolve ref = .ok (glyph, name)) →
    (Obtains s glyph name h e s') → Serves s r s'

theorem serves (s : Session) (r : Request) : Serves s r (s.serve r) := by
  cases r with
  | withLimits limits => exact .limited rfl
  | decode ref =>
    cases hr : s.font.resolve ref with
    | error e =>
      rw [serve, decode_of_error hr]
      exact .unresolved rfl hr (Nat.le_refl _)
    | ok found =>
      rw [serve, decode_of_ok hr]
      exact .obtained rfl hr (obtains s _ _)
  | decodeLossy ref =>
    cases hr : s.font.resolve ref with
    | error e =>
      rw [serve, decodeLossy_of_error hr]
      exact .unresolved rfl hr (Nat.le_succ _)
    | ok found =>
      rw [serve, decodeLossy_of_ok hr]
      exact .obtained rfl hr (obtains s _ _)

-- The request makes the session keep a glyph under a name: no glyph of that name was kept, and this
-- one was built as a new object, without an error and under the limits that are set.
inductive Keeps (font : Font) (s : Session) (r : Request) (name : String) (h : Handle) : Prop
  | intro {ref : GlyphRef} {glyph : UInt16}
    (asked  : r.ref? = some ref)
    (index  : font.glyphIndex ref = .ok glyph)
    (within : glyph.toNat < font.glyphCount)
    (named  : font.glyphName glyph = .ok name)
    (absent : s.cache[name]? = none)
    (number : h.id = s.issued)
    (built  : font.build s.limits glyph name = (h.glyph, none))

namespace Obtains

variable {found : Handle}

theorem font_eq (o : Obtains s glyph name h e s') : s'.font = s.font := by
  cases o <;> rfl

theorem limits_eq (o : Obtains s glyph name h e s') : s'.limits = s.limits := by
  cases o <;> rfl

theorem entry_mono (o : Obtains s glyph name found e s') (hc : s.cache[name']? = some h) :
    s'.cache[name']? = some h := by
  cases o with
  | cached _   => exact hc
  | failed _ _ => exact hc
  | built ha _ =>
    have hne : name ≠ name' := fun he => by simp [← he, ha] at hc
    simpa [Std.HashMap.getElem?_insert, hne] using hc

theorem cache_of_error (o : Obtains s glyph name found e s') (he : e ≠ none) :
    s'.cache = s.cache := by
  cases o with
  | cached _   => rfl
  | failed _ _ => rfl
  | built _ _  => exact absurd rfl he

-- What is handed out without an error is kept.
theorem cache_of_ok (o : Obtains s glyph name h none s') : s'.cache[name]? = some h := by
  cases o with
  | cached hc => exact hc
  | built _ _ => exact Std.HashMap.getElem?_insert_self

-- Once a glyph is kept, it is what the session hands out under its name.
theorem eq_cached (o : Obtains s glyph name found e s') (hc : s.cache[name]? = some h) :
    found = h ∧ e = none := by
  cases o with
  | cached hc'  => exact ⟨Option.some.inj (hc'.symm.trans hc), rfl⟩
  | built ha _  => simp [ha] at hc
  | failed ha _ => simp [ha] at hc

theorem eq_built (o : Obtains s glyph name found e s') (ha : s.cache[name]? = none) :
    s.font.build s.limits glyph name = (found.glyph, e) := by
  cases o with
  | cached hc   => simp [ha] at hc
  | built _ hb  => exact hb
  | failed _ hb => exact hb

end Obtains

namespace Serves

theorem font_eq (c : Serves s r s') : s'.font = s.font := by
  cases c with
  | limited _        => rfl
  | unresolved _ _ _ => rfl
  | obtained _ _ o   => exact o.font_eq

-- An entry is neither replaced nor removed.
theorem entry_mono (c : Serves s r s') (hc : s.cache[name]? = some h) :
    s'.cache[name]? = some h := by
  cases c with
  | limited _        => exact hc
  | unresolved _ _ _ => exact hc
  | obtained _ _ o   => exact o.entry_mono hc

theorem keeps (c : Serves s r s') (hc : s'.cache[name]? = some h) :
    s.cache[name]? = some h ∨ Keeps s.font s r name h := by
  cases c with
  | limited _        => exact .inl hc
  | unresolved _ _ _ => exact .inl hc
  | obtained ha hr o =>
    cases o with
    | cached _   => exact .inl hc
    | failed _ _ => exact .inl hc
    | built hn hb =>
      rw [Std.HashMap.getElem?_insert] at hc
      split at hc
      case isFalse => exact .inl hc
      case isTrue he =>
        obtain rfl := eq_of_beq he
        cases hc
        have ⟨hi, hg⟩ := resolve_eq_ok.mp hr
        exact .inr ⟨ha, hi, lt_of_glyphIndex hi, hg, hn, rfl, hb⟩

end Serves

theorem after_font (font : Font) (requests : List Request) : (after font requests).font = font :=
  after_preserves (P := (·.font = font)) (fun _ r hf => (serves _ r).font_eq.trans hf) rfl requests

theorem entry_foldl_serve (hc : s.cache[name]? = some h) (more : List Request) :
    (more.foldl serve s).cache[name]? = some h :=
  foldl_serve_preserves (P := (·.cache[name]? = some h)) (fun _ r hc => (serves _ r).entry_mono hc)
    hc more

theorem keeps_of_entry {requests : List Request}
    (hc : (after font requests).cache[name]? = some h) :
    ∃ before r rest, requests = before ++ r :: rest ∧ Keeps font (after font before) r name h := by
  induction requests using List.reverseRecOn with
  | nil => simp [after] at hc
  | append_singleton requests r ih =>
    rw [after_append] at hc
    cases (serves _ r).keeps hc with
    | inl hc =>
      have ⟨before, r', rest, he, hk⟩ := ih hc
      exact ⟨before, r', rest ++ [r], by simp [he], hk⟩
    | inr hk =>
      rw [after_font] at hk
      exact ⟨requests, r, [], rfl, hk⟩

-- The numbers of the objects that a session keeps tell them apart.
structure Numbered (s : Session) : Prop where
  lt_issued : ∀ (name : String) (h : Handle), s.cache[name]? = some h → h.id < s.issued
  apart : ∀ (name₁ name₂ : String) (h₁ h₂ : Handle),
    s.cache[name₁]? = some h₁ → s.cache[name₂]? = some h₂ → h₁.id = h₂.id → name₁ = name₂

namespace Numbered

theorem mono (n : s.Numbered) (hc : s'.cache = s.cache) (hi : s.issued ≤ s'.issued) :
    s'.Numbered where
  lt_issued _ _ hk := Nat.lt_of_lt_of_le (n.lt_issued _ _ (hc ▸ hk)) hi
  apart _ _ _ _ hk₁ hk₂ := n.apart _ _ _ _ (hc ▸ hk₁) (hc ▸ hk₂)

-- A new object gets a number that none before it has.
theorem insert (n : s.Numbered) (g : Glyph) :
    { s with cache := s.cache.insert name ⟨s.issued, g⟩, issued := s.issued + 1 }.Numbered where
  lt_issued _ _ hk := by
    rw [Std.HashMap.getElem?_insert] at hk
    split at hk
    case isTrue  => cases hk; exact Nat.lt_succ_self _
    case isFalse => exact Nat.lt_succ_of_lt (n.lt_issued _ _ hk)
  apart _ _ _ _ hk₁ hk₂ he := by
    rw [Std.HashMap.getElem?_insert] at hk₁ hk₂
    split at hk₁ <;> split at hk₂
    case isTrue.isTrue h₁ h₂ => exact (eq_of_beq h₁).symm.trans (eq_of_beq h₂)
    case isTrue.isFalse =>
      cases hk₁
      exact absurd he.symm (Nat.ne_of_lt (n.lt_issued _ _ hk₂))
    case isFalse.isTrue =>
      cases hk₂
      exact absurd he (Nat.ne_of_lt (n.lt_issued _ _ hk₁))
    case isFalse.isFalse => exact n.apart _ _ _ _ hk₁ hk₂ he

theorem serves (n : s.Numbered) (c : Serves s r s') : s'.Numbered := by
  cases c with
  | limited _         => exact n.mono rfl (Nat.le_refl _)
  | unresolved _ _ hi => exact n.mono rfl hi
  | obtained _ _ o =>
    cases o with
    | cached _   => exact n
    | built _ _  => exact n.insert _
    | failed _ _ => exact n.mono rfl (Nat.le_succ _)

theorem after (font : Font) (requests : List Request) : (after font requests).Numbered :=
  after_preserves (fun s r n => n.serves (Session.serves s r)) ⟨by simp, by simp⟩ requests

end Numbered

-- What holds of an entry that the cache has after some requests.
structure Entry (font : Font) (requests : List Request) (name : String) (h : Handle) : Prop where
  name_eq : h.glyph.name = name
  origin : ∃ before r rest,
    requests = before ++ r :: rest ∧ Keeps font (after font before) r name h
  stays : ∀ more, (after font (requests ++ more)).cache[name]? = some h
  served : ∀ more ref glyph, font.resolve ref = .ok (glyph, name) →
    ((after font (requests ++ more)).decode ref).1 = .ok h ∧
      ((after font (requests ++ more)).decodeLossy ref).1 = (h, none)

-- The two ways to ask for a glyph come to the same. A glyph without an error is kept under its
-- name, and a failure leaves no trace in the cache.
structure Agrees (s : Session) (ref : GlyphRef) : Prop where
  ok : ∀ h, (s.decode ref).1 = .ok h ↔ (s.decodeLossy ref).1 = (h, none)
  error : ∀ e, (s.decode ref).1 = .error e ↔ (s.decodeLossy ref).1.2 = some e
  cache : (s.decode ref).2.cache = (s.decodeLossy ref).2.cache
  kept : ∀ h glyph name, s.font.resolve ref = .ok (glyph, name) → (s.decode ref).1 = .ok h →
    (s.decode ref).2.cache[name]? = some h
  failed : ∀ e, (s.decodeLossy ref).1.2 = some e →
    (s.decode ref).2.cache = s.cache ∧ (s.decodeLossy ref).2.cache = s.cache

theorem entry_of_cached {requests : List Request}
    (hc : (after font requests).cache[name]? = some h) : Entry font requests name h := by
  have stays (more : List Request) : (after font (requests ++ more)).cache[name]? = some h :=
    after_append font requests more ▸ entry_foldl_serve hc more
  have ⟨before, r, rest, he, hk⟩ := keeps_of_entry hc
  refine ⟨?_, ⟨before, r, rest, he, hk⟩, stays, fun more ref glyph hr => ?_⟩
  · have ⟨_, _, _, _, _, _, hb⟩ := hk
    have hn := congrArg (·.1.name) hb
    exact hn.symm.trans build_name
  · rw [← after_font font (requests ++ more)] at hr
    have ⟨hh, he⟩ := (obtains _ glyph name).eq_cached (stays more)
    simp [decode_of_ok hr, decodeLossy_of_ok hr, hh, he, Prod.ext_iff]

theorem cached_of_ok (hr : s.font.resolve ref = .ok (glyph, name))
    (hd : (s.decode ref).1 = .ok h) : (s.decode ref).2.cache[name]? = some h := by
  have o := obtains s glyph name
  rw [decode_of_ok hr] at hd ⊢
  cases he : (s.obtain glyph name).1.2 with
  | some e => simp [he] at hd
  | none =>
    rw [he] at hd o
    exact Except.ok.inj hd ▸ o.cache_of_ok

theorem cache_of_failed {e : DecodeError} (he : (s.decodeLossy ref).1.2 = some e) :
    (s.decodeLossy ref).2.cache = s.cache := by
  cases hr : s.font.resolve ref with
  | error e  => rw [decodeLossy_of_error hr]
  | ok found =>
    rw [decodeLossy_of_ok hr] at he ⊢
    exact (obtains s _ _).cache_of_error (by simp [he])

theorem agrees (s : Session) (ref : GlyphRef) : Agrees s ref := by
  have ⟨hd, hc⟩ := decode_eq_decodeLossy s ref
  have failed (e : DecodeError) (he : (s.decodeLossy ref).1.2 = some e) :
      (s.decode ref).2.cache = s.cache ∧ (s.decodeLossy ref).2.cache = s.cache :=
    ⟨hc.trans (cache_of_failed he), cache_of_failed he⟩
  cases he : (s.decodeLossy ref).1.2 with
  | none =>
    exact ⟨by simp [hd, he, Prod.ext_iff], by simp [hd, he], hc, fun _ _ _ => cached_of_ok, failed⟩
  | some e =>
    exact ⟨by simp [hd, he, Prod.ext_iff], by simp [hd, he], hc, fun _ _ _ => cached_of_ok, failed⟩

-- Whatever was asked of a font before and under whatever limits, the cache has under each name the
-- first glyph that was built for it, for good. Failures leave no trace in it.
theorem cache_keeps_first_built (font : Font) (requests : List Request) :
    (∀ name h, (after font requests).cache[name]? = some h → Entry font requests name h) ∧
    (after font requests).Numbered ∧
    ∀ ref, Agrees (after font requests) ref :=
  ⟨fun _ _ hc => entry_of_cached hc, .after font requests, agrees _⟩

end Session

-- Both glyphs behind the first are named `space`. The charstring of the last one holds a byte that
-- is no operator.
def namesakes : List UInt8 :=
  [1, 0, 4, 1] ++ [0, 0] ++ [0, 1, 1, 1, 5, 168, 15, 158, 17] ++ [0, 0] ++ [0, 0] ++
  [0, 3, 1, 1, 2, 3, 4, 14, 14, 2] ++ [0, 0, 1, 0, 1]

theorem read_namesakes :
    ∃ font, read namesakes = .ok font ∧
      font.resolve (.index 1) = .ok (1, "space") ∧ font.resolve (.index 2) = .ok (2, "space") ∧
      font.build {} 1 "space" = (⟨"space", .empty, 0⟩, none) ∧
      font.build {} 2 "space" =
        (⟨"space", .empty, 0⟩, some (.unsupportedCharstringOperator 2)) :=
  exists_of_map_decide (by decide +kernel)

namespace Session

-- The failed request takes the number 0 and leaves nothing. What is built next stands for both.
theorem cache_keeps_first_built_namesakes :
    ∃ font h, read namesakes = .ok font ∧ h = ⟨1, ⟨"space", .empty, 0⟩⟩ ∧
      (after font [.decode (.index 2), .decodeLossy (.index 1)]).cache["space"]? = some h ∧
      Entry font [.decode (.index 2), .decodeLossy (.index 1)] "space" h ∧
      ((after font [.decode (.index 2), .decodeLossy (.index 1), .withLimits ⟨0, 0⟩]).decode
        (.index 2)).1 = .ok h := by
  have ⟨font, hr, hr₁, hr₂, hb₁, hb₂⟩ := read_namesakes
  have hc : (after font [.decode (.index 2), .decodeLossy (.index 1)]).cache["space"]? =
      some ⟨1, ⟨"space", .empty, 0⟩⟩ := by
    simp [after, serve, decode, decodeLossy, obtain, issue, keep, hr₁, hb₁, hr₂, hb₂]
  have entry := (cache_keeps_first_built font _).left _ _ hc
  exact ⟨font, _, hr, rfl, hc, entry, (entry.served [.withLimits ⟨0, 0⟩] _ _ hr₂).left⟩

end Session

end PdfGraphics.Font
