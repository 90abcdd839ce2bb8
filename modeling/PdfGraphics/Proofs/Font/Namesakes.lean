import PdfGraphics.Proofs.Font.Cache
/-!
Glyphs that share a name.

They share an entry of the cache. Which glyph that entry shows depends on the requests before, and
on nothing else: the first glyph of the name that could be built stands for all of them.
-/

namespace PdfGraphics.Font

variable {font : Font} {limits : Charstring.Limits} {ref : GlyphRef} {glyph i j : UInt16}
  {name : String} {r : Request} {requests : List Request}

theorem resolve_index (font : Font) (i : UInt16) :
    font.resolve (.index i) = (font.glyphName i).map fun name => (i, name) := by
  by_cases hi : i.toNat < font.glyphCount
  case pos =>
    cases hn : font.glyphName i <;>
      simp [resolve, glyphIndex, within?, hi, need, hn, bind, Except.bind, pure, Except.pure,
        Except.map]
  case neg =>
    simp [resolve, glyphIndex, glyphName, within?, hi, need, bind, Except.bind, Except.map]

-- The glyph that a request could have built under a name.
def Request.buildable? (font : Font) (limits : Charstring.Limits) (name : String) (r : Request) :
    Option UInt16 :=
  match r.ref?.map font.resolve with
  | some (.ok (glyph, found)) =>
    if found = name ∧ (font.build limits glyph name).2 = none then some glyph else none
  | _ => none

theorem Request.buildable?_eq_some :
    r.buildable? font limits name = some glyph ↔
      ∃ ref, r.ref? = some ref ∧ font.resolve ref = .ok (glyph, name) ∧
        (font.build limits glyph name).2 = none := by
  simp only [buildable?]
  constructor
  · intro h
    split at h
    case h_1 found hr =>
      obtain ⟨ref, ha, hr⟩ := Option.map_eq_some_iff.mp hr
      split at h
      case isTrue hb =>
        obtain rfl := Option.some.inj h
        exact ⟨ref, ha, hb.left ▸ hr, hb.right⟩
      case isFalse => cases h
    case h_2 => cases h
  · rintro ⟨ref, ha, hr, hb⟩
    simp [ha, hr, hb]

theorem Request.buildable?_of_ok (ha : r.ref? = some ref)
    (hr : font.resolve ref = .ok (glyph, name)) :
    r.buildable? font limits name =
      if (font.build limits glyph name).2 = none then some glyph else none := by
  simp [buildable?, ha, hr]

theorem Request.buildable?_of_ne {found : String} (ha : r.ref? = some ref)
    (hr : font.resolve ref = .ok (glyph, found)) (hne : found ≠ name) :
    r.buildable? font limits name = none := by
  simp [buildable?, ha, hr, hne]

-- The first glyph that the requests could have built under a name.
def firstBuildable? (font : Font) (limits : Charstring.Limits) (name : String)
    (requests : List Request) : Option UInt16 :=
  requests.findSome? (·.buildable? font limits name)

-- The glyph that a session shows for another one after some requests: the first of its name that
-- was built, or the glyph itself.
def standIn (font : Font) (limits : Charstring.Limits) (requests : List Request) (i : UInt16) :
    UInt16 :=
  match font.glyphName i with
  | .ok name => (font.firstBuildable? limits name requests).getD i
  | .error _ => i

theorem standIn_of_name {name : String} (hn : font.glyphName i = .ok name) :
    font.standIn limits requests i = (font.firstBuildable? limits name requests).getD i := by
  simp [standIn, hn]

theorem of_firstBuildable? (hf : font.firstBuildable? limits name requests = some j) :
    font.glyphName j = .ok name ∧ (font.build limits j name).2 = none ∧
      ∃ r ∈ requests, ∃ ref, r.ref? = some ref ∧ font.glyphIndex ref = .ok j := by
  have ⟨r, hm, hb⟩ := List.exists_of_findSome?_eq_some hf
  have ⟨ref, ha, hr, hb⟩ := Request.buildable?_eq_some.mp hb
  have ⟨hi, hn⟩ := resolve_eq_ok.mp hr
  exact ⟨hn, hb, r, hm, ref, ha, hi⟩

-- Another glyph stands for one only if it has the same name and an earlier request had it built.
theorem of_standIn_ne (hne : font.standIn limits requests i ≠ i) :
    ∃ name, font.glyphName i = .ok name ∧
      font.firstBuildable? limits name requests = some (font.standIn limits requests i) := by
  cases hn : font.glyphName i with
  | error e => simp [standIn, hn] at hne
  | ok name =>
    rw [standIn_of_name hn] at hne ⊢
    cases hf : font.firstBuildable? limits name requests with
    | none   => simp [hf] at hne
    | some j => exact ⟨name, rfl, hf⟩

namespace Session

variable {s s' : Session} {h : Handle} {e : Option DecodeError}

-- The glyph that is kept under a name.
def kept? (s : Session) (name : String) : Option Glyph :=
  s.cache[name]?.map (·.glyph)

-- What a request for a glyph answers, but for the number of the object.
def answer (s : Session) (ref : GlyphRef) : Except DecodeError Glyph :=
  (s.decode ref).1.map (·.glyph)

theorem answer_of_error {e : DecodeError} (hr : s.font.resolve ref = .error e) :
    s.answer ref = .error e := by
  simp [answer, decode_of_error hr, Except.map]

theorem answer_of_kept {g : Glyph} (hr : s.font.resolve ref = .ok (glyph, name))
    (hk : s.kept? name = some g) : s.answer ref = .ok g := by
  obtain ⟨h, hc, rfl⟩ := Option.map_eq_some_iff.mp hk
  have ⟨hh, he⟩ := (obtains s glyph name).eq_cached hc
  simp [answer, decode_of_ok hr, hh, he, Except.map]

theorem answer_of_unkept (hr : s.font.resolve ref = .ok (glyph, name)) (hk : s.kept? name = none) :
    s.answer ref = (s.font.build s.limits glyph name).2.elim
      (.ok (s.font.build s.limits glyph name).1) .error := by
  have hb := (obtains s glyph name).eq_built (Option.map_eq_none_iff.mp hk)
  cases he : (s.obtain glyph name).1.2 <;> simp [answer, decode_of_ok hr, hb, he, Except.map]

theorem kept?_insert (h : Handle) (issued : Nat) (name' : String) :
    { s with cache := s.cache.insert name h, issued }.kept? name' =
      if name = name' then some h.glyph else s.kept? name' := by
  by_cases he : name = name' <;> simp [kept?, Std.HashMap.getElem?_insert, he]

-- A request adds what it could have built under a name, unless there is a glyph of that name.
theorem Serves.kept?_eq (c : Serves s r s') (name : String) :
    s'.kept? name = (s.kept? name).or ((r.buildable? s.font s.limits name).map fun i =>
      (s.font.build s.limits i name).1) := by
  cases c with
  | limited he         => simp [he, kept?, withLimits, Request.buildable?, Request.ref?]
  | unresolved ha hr _ => simp [kept?, Request.buildable?, ha, hr]
  | @obtained ref glyph found _ _ _ ha hr o =>
    by_cases hn : found = name
    case neg =>
      rw [Request.buildable?_of_ne ha hr hn]
      cases o with
      | cached _   => simp
      | failed _ _ => simp [kept?]
      | built _ _  => simp [kept?_insert, hn]
    case pos =>
      obtain rfl := hn
      rw [Request.buildable?_of_ok ha hr]
      cases o with
      | cached hc    => simp [kept?, hc]
      | failed _ hb  => simp [kept?, hb]
      | built hc hb  => simp [kept?, hb, hc]

theorem Serves.limits_eq (c : Serves s r s') (ha : r.ref? ≠ none) : s'.limits = s.limits := by
  cases c with
  | limited he       => simp [he, Request.ref?] at ha
  | unresolved _ _ _ => rfl
  | obtained _ _ o   => exact o.limits_eq

section Calls

variable (calls : ∀ r ∈ requests, r.ref? ≠ none)
include calls

theorem after_limits : (after font (.withLimits limits :: requests)).limits = limits := by
  induction requests using List.reverseRecOn with
  | nil => rfl
  | append_singleton requests r ih =>
    rw [← List.cons_append, after_append]
    have hl := ih fun r hr => calls r (List.mem_append_left _ hr)
    exact ((serves _ r).limits_eq (calls r (by simp))).trans hl

-- What is kept under a name is the first glyph that could be built under it.
theorem kept?_after (name : String) :
    (after font (.withLimits limits :: requests)).kept? name =
      (font.firstBuildable? limits name requests).map fun i => (font.build limits i name).1 := by
  induction requests using List.reverseRecOn with
  | nil => simp [after, serve, withLimits, kept?, firstBuildable?]
  | append_singleton requests r ih =>
    have calls' : ∀ r ∈ requests, r.ref? ≠ none := fun r hr => calls r (List.mem_append_left _ hr)
    rw [← List.cons_append, after_append, List.foldl_cons, List.foldl_nil, (serves _ r).kept?_eq,
      ih calls', after_font, after_limits calls', firstBuildable?, firstBuildable?,
      List.findSome?_append, Option.map_or]
    simp

end Calls

theorem answer_fresh (hr : font.resolve ref = .ok (glyph, name)) :
    (after font [.withLimits limits]).answer ref =
      (font.build limits glyph name).2.elim (.ok (font.build limits glyph name).1) .error :=
  answer_of_unkept hr (by simp [after, serve, withLimits, kept?])

theorem answer_index_after (calls : ∀ r ∈ requests, r.ref? ≠ none) (i : UInt16) :
    (after font (.withLimits limits :: requests)).answer (.index i) =
      (after font [.withLimits limits]).answer (.index (font.standIn limits requests i)) := by
  cases hn : font.glyphName i with
  | error e =>
    have hr : font.resolve (.index i) = .error e := by rw [resolve_index, hn]; rfl
    have hs : font.standIn limits requests i = i := by simp [standIn, hn]
    rw [hs, answer_of_error (after_font font _ ▸ hr), answer_of_error (after_font font _ ▸ hr)]
  | ok name =>
    have hr : font.resolve (.index i) = .ok (i, name) := by rw [resolve_index, hn]; rfl
    have hk := @kept?_after font limits requests calls name
    rw [standIn_of_name hn]
    cases hf : font.firstBuildable? limits name requests with
    | none =>
      rw [hf] at hk
      rw [answer_of_unkept (after_font font _ ▸ hr) hk, after_font, after_limits calls]
      exact (answer_fresh hr).symm
    | some j =>
      rw [hf] at hk
      have ⟨hj, hb, _⟩ := of_firstBuildable? hf
      have hr' : font.resolve (.index j) = .ok (j, name) := by rw [resolve_index, hj]; rfl
      rw [answer_of_kept (after_font font _ ▸ hr) hk, Option.getD_some, answer_fresh hr', hb]
      rfl

-- With fixed limits, a request for a glyph by its number answers what a new session answers for the
-- glyph that stands for it. This is the glyph itself, unless another one has its name and was built
-- for an earlier request.
theorem answer_after_requests (font : Font) (limits : Charstring.Limits) (requests : List Request)
    (calls : ∀ r ∈ requests, r.ref? ≠ none) (i : UInt16) :
    (after font (.withLimits limits :: requests)).answer (.index i) =
      (after font [.withLimits limits]).answer (.index (font.standIn limits requests i)) ∧
    (font.standIn limits requests i ≠ i → ∃ name,
      font.glyphName i = .ok name ∧ font.glyphName (font.standIn limits requests i) = .ok name ∧
      (font.build limits (font.standIn limits requests i) name).2 = none ∧
      ∃ r ∈ requests, ∃ ref,
        r.ref? = some ref ∧ font.glyphIndex ref = .ok (font.standIn limits requests i)) ∧
    ((∀ name j, font.glyphName i = .ok name → font.glyphName j = .ok name → j = i) →
      (after font (.withLimits limits :: requests)).answer (.index i) =
        (after font [.withLimits limits]).answer (.index i)) := by
  refine ⟨answer_index_after calls i, fun hne => ?_, fun unshared => ?_⟩
  case _ =>
    have ⟨name, hn, hf⟩ := of_standIn_ne hne
    exact ⟨name, hn, of_firstBuildable? hf⟩
  case _ =>
    rw [answer_index_after calls]
    by_cases hs : font.standIn limits requests i = i
    case pos => rw [hs]
    case neg =>
      have ⟨name, hn, hf⟩ := of_standIn_ne hs
      exact absurd (unshared name _ hn (of_firstBuildable? hf).left) hs

-- The wrong charstring of the last glyph is noticed by a new session only.
theorem answer_after_requests_namesakes :
    ∃ font, read namesakes = .ok font ∧
      (∀ r ∈ [Request.decode (.index 1)], r.ref? ≠ none) ∧
      font.standIn {} [.decode (.index 1)] 2 = 1 ∧
      (after font [.withLimits {}, .decode (.index 1)]).answer (.index 2) =
        (after font [.withLimits {}]).answer (.index 1) := by
  have ⟨font, hr, hr₁, hr₂, hb₁, hb₂⟩ := read_namesakes
  have calls : ∀ r ∈ [Request.decode (.index 1)], r.ref? ≠ none := by simp [Request.ref?]
  have hn : font.glyphName 2 = .ok "space" := (resolve_eq_ok.mp hr₂).right
  have hs : font.standIn {} [.decode (.index 1)] 2 = 1 := by
    simp [standIn, hn, firstBuildable?, Request.buildable?, Request.ref?, hr₁, hb₁]
  have ha := (answer_after_requests font {} _ calls 2).left
  rw [hs] at ha
  exact ⟨font, hr, calls, hs, ha⟩

-- A request for the last glyph is answered by the outline of the one before it, though a new
-- session cannot build it.
theorem namesakes_answer_for_another :
    ∃ font, read namesakes = .ok font ∧
      (after font [.withLimits {}, .decode (.index 1)]).answer (.index 2) =
        .ok ⟨"space", .empty, 0⟩ ∧
      (after font [.withLimits {}]).answer (.index 2) =
        .error (.unsupportedCharstringOperator 2) := by
  have ⟨font, hr, hr₁, hr₂, hb₁, hb₂⟩ := read_namesakes
  have hk : (after font [.withLimits {}, .decode (.index 1)]).kept? "space" =
      some ⟨"space", .empty, 0⟩ := by
    rw [kept?_after (by simp [Request.ref?])]
    simp [firstBuildable?, Request.buildable?, Request.ref?, hr₁, hb₁]
  refine ⟨font, hr, answer_of_kept (after_font font _ ▸ hr₂) hk, ?_⟩
  rw [answer_fresh hr₂, hb₂]
  rfl

end Session

end PdfGraphics.Font
