import ZipContainer.EntryPath

/-!
# Canonical paths

A canonical path is a join by `/` of one or more names, where a name is a piece that is neither
empty nor `.` nor `..` and holds no separator and no NUL (`IsCanonical`).

* `isCanonical_of_normalize`: what normalising yields is canonical.
* `normalize_of_isCanonical`: a canonical path is its own canonical form, unless it begins with a
  drive letter and a colon; then it is refused as absolute.

The second statement has an exception because the check for absolute paths looks at the path as it
was given.  The segment that comes first in the result need not have been first there: `./C:/x`
and `a/../C:/x` both become `C:/x`.
-/

namespace ZipContainer.Text

variable {isSeparator : Point → Bool}

theorem pieces_ne_nil (cs : List Point) : pieces isSeparator cs ≠ [] := by
  cases cs with
  | nil => simp [pieces]
  | cons c cs =>
      simp only [pieces, List.foldr_cons, addToPieces]
      split
      · simp
      · split <;> simp

/-- A separator cuts: the pieces on both sides of it are independent. -/
theorem pieces_append_cons {c : Point} (hc : isSeparator c = true) (as bs : List Point) :
    pieces isSeparator (as ++ c :: bs) = pieces isSeparator as ++ pieces isSeparator bs := by
  induction as with
  | nil => simp [pieces, addToPieces, hc]
  | cons a as ih =>
      have step (cs : List Point) : pieces isSeparator (a :: cs) =
        addToPieces isSeparator a (pieces isSeparator cs) := rfl
      rw [List.cons_append, step, step, ih]
      cases h : pieces isSeparator as with
      | nil => exact absurd h (pieces_ne_nil as)
      | cons p ps => simp only [addToPieces, List.cons_append]; split <;> rfl

theorem pieces_of_free {cs : List Point} (h : ∀ c ∈ cs, isSeparator c = false) :
    pieces isSeparator cs = [cs] := by
  induction cs with
  | nil => rfl
  | cons c cs ih =>
      have step : pieces isSeparator (c :: cs) =
        addToPieces isSeparator c (pieces isSeparator cs) := rfl
      rw [step, ih fun d hd => h d (List.mem_cons_of_mem c hd), addToPieces,
        h c List.mem_cons_self]
      rfl

/-- Joining pieces and cutting again gives them back. -/
theorem pieces_intercalate {c : Point} (hc : isSeparator c = true) {ps : List (List Point)}
    (hne : ps ≠ []) (h : ∀ p ∈ ps, ∀ d ∈ p, isSeparator d = false) :
    pieces isSeparator (List.intercalate [c] ps) = ps := by
  induction ps with
  | nil => exact absurd rfl hne
  | cons p ps ih =>
      have free := pieces_of_free (h p List.mem_cons_self)
      cases ps with
      | nil => simpa using free
      | cons q qs =>
          rw [List.intercalate_cons_cons, List.append_assoc, List.singleton_append,
            pieces_append_cons hc, free, ih (by simp) fun r hr => h r (List.mem_cons_of_mem p hr)]
          rfl

/-- A piece holds characters of the text, and no separators. -/
theorem of_mem_pieces {cs p : List Point} (hp : p ∈ pieces isSeparator cs) {d : Point}
    (hd : d ∈ p) : d ∈ cs ∧ isSeparator d = false := by
  have hmem : d ∈ (pieces isSeparator cs).flatten := List.mem_flatten.mpr ⟨p, hp, hd⟩
  rw [flatten_pieces, List.mem_filter] at hmem
  simpa using hmem

end ZipContainer.Text

namespace ZipContainer.EntryPath

/-! ### Names -/

/-- A piece that names something: it stands for itself in every path. -/
structure IsName (s : List Point) : Prop where
  ne_nil : s ≠ []
  ne_dot : s ≠ here
  ne_dots : s ≠ up
  free : ∀ c ∈ s, isSeparator c = false
  noNul : Point.nul ∉ s

/-- A join of names. -/
def IsCanonical (cs : List Point) : Prop :=
  ∃ names, names ≠ [] ∧ (∀ s ∈ names, IsName s) ∧ cs = List.intercalate [Point.slash] names

/-- The text begins with a drive letter and a colon. -/
def beginsWithDrive : List Point → Bool
  | c :: d :: _ => isDriveLetter c && d = .colon
  | _ => false

theorem IsName.isSegment {s : List Point} (h : IsName s) : s ≠ [] ∧ s ≠ here :=
  ⟨h.ne_nil, h.ne_dot⟩

theorem segments_intercalate {names : List (List Point)} (hne : names ≠ [])
    (h : ∀ s ∈ names, IsName s) : segments (List.intercalate [Point.slash] names) = names := by
  rw [segments, Text.pieces_intercalate rfl hne fun s hs => (h s hs).free,
    List.filter_eq_self]
  intro s hs
  simpa using (h s hs).isSegment

/-! ### Resolving -/

/-- Names only pile up. -/
theorem foldlM_enter_names {names : List (List Point)} (h : ∀ s ∈ names, IsName s)
    (stack : List (List Point)) :
    names.foldlM enter stack = some (names.reverse ++ stack) := by
  induction names generalizing stack with
  | nil => rfl
  | cons s names ih =>
      have enters : enter stack s = some (s :: stack) :=
        if_neg (h s List.mem_cons_self).ne_dots
      rw [List.foldlM_cons, enters]
      simpa using ih (fun t ht => h t (List.mem_cons_of_mem s ht)) (s :: stack)

theorem resolve_names {names : List (List Point)} (h : ∀ s ∈ names, IsName s) :
    resolve names = some names := by
  simp [resolve, foldlM_enter_names h]

/-- What one segment leaves on the stack was there, or is the segment and not `..`. -/
theorem mem_enter {stack stack' : List (List Point)} {segment : List Point}
    (h : enter stack segment = some stack') {s : List Point} (hs : s ∈ stack') :
    s ∈ stack ∨ (s = segment ∧ s ≠ up) := by
  unfold enter at h
  split at h
  · cases stack with
    | nil => cases h
    | cons top rest => cases h; exact .inl (List.mem_cons_of_mem top hs)
  · next hne =>
      cases h
      rcases List.mem_cons.mp hs with rfl | hs
      · exact .inr ⟨rfl, hne⟩
      · exact .inl hs

theorem mem_foldlM_enter {segs : List (List Point)} :
    ∀ {stack stack' : List (List Point)}, segs.foldlM enter stack = some stack' →
      ∀ s ∈ stack', s ∈ stack ∨ (s ∈ segs ∧ s ≠ up) := by
  induction segs with
  | nil =>
      intro stack stack' h s hs
      cases h
      exact .inl hs
  | cons segment segs ih =>
      intro stack stack' h s hs
      rw [List.foldlM_cons, Option.bind_eq_bind, Option.bind_eq_some_iff] at h
      obtain ⟨middle, hm, h⟩ := h
      rcases ih h s hs with hs | ⟨hs, hne⟩
      · rcases mem_enter hm hs with hs | ⟨rfl, hne⟩
        · exact .inl hs
        · exact .inr ⟨List.mem_cons_self, hne⟩
      · exact .inr ⟨List.mem_cons_of_mem segment hs, hne⟩

/-- What remains of segments are segments, and none is `..`. -/
theorem mem_of_resolve {segs names : List (List Point)} (h : resolve segs = some names)
    {s : List Point} (hs : s ∈ names) : s ∈ segs ∧ s ≠ up := by
  simp only [resolve, Option.map_eq_some_iff] at h
  obtain ⟨stack, hstack, rfl⟩ := h
  exact (mem_foldlM_enter hstack s (List.mem_reverse.mp hs)).resolve_left List.not_mem_nil

/-- The remaining names of a path without NUL are names. -/
theorem isName_of_resolve {cs : List Point} {names : List (List Point)} (hnul : Point.nul ∉ cs)
    (h : resolve (segments cs) = some names) {s : List Point} (hs : s ∈ names) : IsName s := by
  obtain ⟨hseg, hdots⟩ := mem_of_resolve h hs
  obtain ⟨hpiece, hkept⟩ := List.mem_filter.mp hseg
  simp only [ne_eq, decide_not, Bool.and_eq_true, Bool.not_eq_true', decide_eq_false_iff_not]
    at hkept
  exact ⟨hkept.1, hkept.2, hdots, fun c hc => (Text.of_mem_pieces hpiece hc).2,
    fun hc => hnul (Text.of_mem_pieces hpiece hc).1⟩

/-! ### Normalising -/

/-- When normalising succeeds, and all that it does then. -/
theorem normalize_eq_ok_iff {p q : Text} :
    normalize p = .ok q ↔
      Point.nul ∉ p.toList ∧ isAbsolute p.toList = false ∧
        ∃ names, names ≠ [] ∧ resolve (segments p.toList) = some names ∧
          q = Text.mk (List.intercalate [Point.slash] names) := by
  simp only [normalize]
  constructor
  · intro h
    split at h
    · cases h
    next hnul =>
    split at h
    · cases h
    next habs =>
    split at h
    · cases h
    · cases h
    next names hne hres =>
    cases h
    exact ⟨by simpa using hnul, by simpa using habs, names, hne, hres, rfl⟩
  · rintro ⟨hnul, habs, names, hne, hres, rfl⟩
    rw [if_neg (by simpa using hnul), if_neg (by simpa using habs), hres]
    cases names with
    | nil => exact absurd rfl hne
    | cons s names => rfl

/-- **What normalising yields is canonical.** -/
theorem isCanonical_of_normalize {p q : Text} (h : normalize p = .ok q) :
    IsCanonical q.toList := by
  obtain ⟨hnul, -, names, hne, hres, rfl⟩ := normalize_eq_ok_iff.mp h
  exact ⟨names, hne, fun s hs => isName_of_resolve hnul hres hs, rfl⟩

theorem noNul_of_isCanonical {cs : List Point} (h : IsCanonical cs) : Point.nul ∉ cs := by
  obtain ⟨names, -, hnames, rfl⟩ := h
  induction names with
  | nil => simp [List.intercalate]
  | cons s names ih =>
      have hs := (hnames s List.mem_cons_self).noNul
      have hrest := ih fun t ht => hnames t (List.mem_cons_of_mem s ht)
      cases names with
      | nil => simpa using hs
      | cons t ts =>
          have apart : Point.nul ≠ Point.slash := by decide
          rw [List.intercalate_cons_cons]
          simp [hs, hrest, apart]

/-- A canonical text begins with a character of its first name. -/
theorem head_of_isCanonical {cs : List Point} (h : IsCanonical cs) :
    ∃ c rest, cs = c :: rest ∧ isSeparator c = false := by
  obtain ⟨names, hne, hnames, rfl⟩ := h
  cases names with
  | nil => exact absurd rfl hne
  | cons s names =>
      have hs := hnames s List.mem_cons_self
      cases s with
      | nil => exact absurd rfl hs.ne_nil
      | cons c s =>
          refine ⟨c, ?_⟩
          cases names with
          | nil => exact ⟨s, by simp, hs.free c List.mem_cons_self⟩
          | cons t ts =>
              exact ⟨s ++ [Point.slash] ++ List.intercalate [Point.slash] (t :: ts),
                by simp [List.intercalate_cons_cons], hs.free c List.mem_cons_self⟩

/-- A canonical text does not end in a slash. -/
theorem getLast?_of_isCanonical {cs : List Point} (h : IsCanonical cs) :
    cs.getLast? ≠ some Point.slash := by
  obtain ⟨names, hne, hnames, rfl⟩ := h
  induction names with
  | nil => exact absurd rfl hne
  | cons s names ih =>
      -- A join ends as its last name does, and names hold no separator.
      cases names with
      | nil =>
          have hs := hnames s List.mem_cons_self
          intro hlast
          rw [List.intercalate_singleton] at hlast
          exact Bool.noConfusion (hs.free .slash (List.mem_of_getLast? hlast))
      | cons t ts =>
          have hnames' : ∀ u ∈ t :: ts, IsName u := fun u hu => hnames u (List.mem_cons_of_mem s hu)
          obtain ⟨c, rest, hhead, -⟩ :=
            head_of_isCanonical ⟨t :: ts, List.cons_ne_nil t ts, hnames', rfl⟩
          have more : List.intercalate [Point.slash] (t :: ts) ≠ [] := by
            rw [hhead]
            exact List.cons_ne_nil c rest
          have hrest := ih (List.cons_ne_nil t ts) hnames'
          rw [List.intercalate_cons_cons, List.getLast?_append]
          cases hlast : (List.intercalate [Point.slash] (t :: ts)).getLast? with
          | none => exact absurd (List.getLast?_eq_none_iff.mp hlast) more
          | some d =>
              rw [hlast] at hrest
              exact hrest

/-- A canonical text is absolute only through a drive letter. -/
theorem isAbsolute_of_isCanonical {cs : List Point} (h : IsCanonical cs) :
    isAbsolute cs = beginsWithDrive cs := by
  obtain ⟨c, rest, rfl, hc⟩ := head_of_isCanonical h
  cases rest with
  | nil => exact hc
  | cons d rest => simp [isAbsolute, beginsWithDrive, hc]

/-- **A canonical path is its own canonical form**, unless it begins with a drive letter. -/
theorem normalize_of_isCanonical {q : Text} (h : IsCanonical q.toList) :
    normalize q = if beginsWithDrive q.toList then .error (.absolute q) else .ok q := by
  have hnul : q.toList.contains Point.nul = false := by simpa using noNul_of_isCanonical h
  simp only [normalize, hnul, isAbsolute_of_isCanonical h]
  obtain ⟨names, hne, hnames, hq⟩ := h
  have hjoin : Text.mk (List.intercalate [Point.slash] names) = q := by
    rw [← hq]
  rw [hq, segments_intercalate hne hnames, resolve_names hnames]
  cases names with
  | nil => exact absurd rfl hne
  | cons s names => simp [hjoin]

end ZipContainer.EntryPath
