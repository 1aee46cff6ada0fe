import Mathlib.Order.Bounds.Defs
import ZipContainer.Proofs.Contents.Lookup

/-!
# Histories of tables

A table is made of offers of which none may fail (`ofOffers_eq_ok_iff`), and is then made any further
offers, of which some may fail (`offerAll`).  An offer puts its entry at the end (`put_eq`), or fails
before anything is done to the table (`snd_put_of_error`).  So a table holds the entries of those offers
that were taken, in order (`offerAll_eq`), and its index stays right (`Indexed.offerAll`).  What
look-ups tell follows from the index (`Indexed.tells`).

`history_told` says this of every table at every moment of its history, and that what a look-up has
found it finds ever after, whatever the table is offered.
-/

namespace ZipContainer

/-- The path of the entry ends with the suffix. -/
def Entry.EndsWith (e : Entry) (suffix : Text) : Prop := ∃ front, e.path = front ++ suffix

theorem Entry.endsWith_iff (e : Entry) (suffix : Text) :
    suffix.toList.isSuffixOf e.path.toList = true ↔ e.EndsWith suffix := by
  rw [List.isSuffixOf_iff_suffix]
  constructor
  · rintro ⟨front, split⟩
    exact ⟨⟨front⟩, congrArg Text.mk split.symm⟩
  · rintro ⟨front, path⟩
    exact ⟨front.toList, by rw [path, Text.toList_append]⟩

/-- The content of the offer can be turned into bytes. -/
def Offer.HasBytes (offer : Offer) : Prop := ∃ b, offer.bytes = .ok b

/-- The entry that an offer becomes, if its content has bytes. -/
def Offer.entry? (offer : Offer) : Option Entry :=
  match offer.bytes with
  | .ok b => some ⟨offer.path, b⟩
  | .error _ => none

namespace Contents

variable {t t₀ : Contents} {offer : Offer} {offers : List Offer} {es : List Entry} {e : Entry}

/-! ### Taking offers -/

/-- The entries of the offers that have bytes. -/
def taken (offers : List Offer) : List Entry := offers.filterMap Offer.entry?

/-- The table after offers were made to it in order, whether they failed or not. -/
def offerAll (t : Contents) (offers : List Offer) : Contents :=
  offers.foldl (fun t offer => (put offer t).2) t

/-- All that an offer does to a table: it appends its entry, if it becomes one, and ends in it or in
what its content failed with. -/
theorem put_eq (offer : Offer) (t : Contents) :
    put offer t =
      (offer.bytes.map fun b => ⟨offer.path, b⟩, offer.entry?.toList.foldl append t) := by
  obtain ⟨path, f | b⟩ := offer <;> rfl

/-- **A failure leaves the table as it was**, since an offer fails before the index is reached. -/
theorem snd_put_of_error {f : Failure} (failed : (put offer t).1 = .error f) :
    (put offer t).2 = t := by
  obtain ⟨path, f | b⟩ := offer
  · rfl
  · cases failed

/-- **Offers one after the other append what is taken**, in order. -/
theorem offerAll_eq (t : Contents) (offers : List Offer) :
    t.offerAll offers = (taken offers).foldl append t := by
  induction offers generalizing t with
  | nil => rfl
  | cons offer offers ih =>
      show (put offer t).2.offerAll offers = _
      rw [ih, put_eq, taken, taken, List.filterMap_cons]
      cases offer.entry? with
      | none => rfl
      | some e => rfl

theorem toList_offerAll (t : Contents) (offers : List Offer) :
    (t.offerAll offers).toList = t.toList ++ taken offers := by
  rw [offerAll_eq, toList_foldl_append]

theorem Indexed.offerAll (h : t.Indexed) (offers : List Offer) : (t.offerAll offers).Indexed := by
  rw [offerAll_eq]
  exact h.foldl (taken offers)

/-- Offers are taken in order up to the first that fails. -/
theorem outcome_putAll_cons (offer : Offer) (offers : List Offer) (t : Contents) :
    (putAll (offer :: offers)).outcome t =
      match offer.bytes with
      | .ok _ => (putAll offers).outcome (put offer t).2
      | .error f => .error f := by
  obtain ⟨path, f | b⟩ := offer <;> rfl

theorem outcome_putAll_eq_ok_iff :
    (putAll offers).outcome t₀ = .ok ((), t) ↔
      (∀ offer ∈ offers, offer.HasBytes) ∧ t = t₀.offerAll offers := by
  induction offers generalizing t₀ with
  | nil =>
      constructor
      · rintro ⟨⟩
        exact ⟨nofun, rfl⟩
      · rintro ⟨-, rfl⟩
        rfl
  | cons offer offers ih =>
      rw [outcome_putAll_cons, List.forall_mem_cons]
      cases h : offer.bytes with
      | ok b =>
          have has : offer.HasBytes := ⟨b, h⟩
          simp only [has, true_and]
          exact ih
      | error f =>
          have hasNone : ¬ offer.HasBytes := fun ⟨b, hb⟩ => by rw [h] at hb; cases hb
          simp only [hasNone, false_and, iff_false]
          nofun

/-- **A table is made of offers exactly if all have bytes**, and then holds their entries. -/
theorem ofOffers_eq_ok_iff :
    ofOffers offers = .ok t ↔ (∀ offer ∈ offers, offer.HasBytes) ∧ t = empty.offerAll offers := by
  rw [← outcome_putAll_eq_ok_iff, ofOffers]
  rcases (putAll offers).outcome empty with f | ⟨⟨⟩, t'⟩
  · constructor <;> nofun
  · constructor
    · rintro ⟨⟩
      rfl
    · rintro ⟨⟩
      rfl

/-- **The table of a list of entries is made of offers of them**, so what is said of tables that are
made of offers is said of those that archives show. -/
theorem ofOffers_entries (es : List Entry) :
    ofOffers (es.map fun e => ⟨e.path, .ok e.content⟩) = .ok (ofList es) := by
  have all : taken (es.map fun e => ⟨e.path, .ok e.content⟩) = es := by
    rw [taken, List.filterMap_map]
    exact List.filterMap_some
  refine ofOffers_eq_ok_iff.mpr ⟨?_, ?_⟩
  · intro offer offered
    obtain ⟨e, -, rfl⟩ := List.mem_map.mp offered
    exact ⟨e.content, rfl⟩
  · rw [offerAll_eq, all, ofList]

/-! ### Look-ups -/

/-- The entry is the first of the list that has the property. -/
def IsFirst (p : Entry → Prop) (es : List Entry) (e : Entry) : Prop :=
  p e ∧ ∃ before after, es = before ++ e :: after ∧ ∀ e' ∈ before, ¬ p e'

theorem find?_eq_some_iff_isFirst {q : Entry → Bool} {p : Entry → Prop} (h : ∀ e, q e = true ↔ p e) :
    es.find? q = some e ↔ IsFirst p es e := by
  rw [List.find?_eq_some_iff_append, IsFirst, h]
  simp only [← h, Bool.not_eq_true, Bool.not_eq_eq_eq_not, Bool.not_true]

/-- A table tells entries: it lists them, and its index and its look-ups are right about them. -/
structure Tells (t : Contents) (es : List Entry) : Prop where
  entries : t.toList = es
  paths : t.paths = es.map Entry.path
  /-- The index leads from the path of an entry to its smallest position, and knows no other path. -/
  index : ∀ path i, t.firstAt[path]? = some i ↔ IsLeast {n : Nat | t.paths[n]? = some path} i
  contains : ∀ path, t.contains path = true ↔ path ∈ t.paths
  get? : ∀ path e, t.get? path = some e ↔ IsFirst (fun e => e.path = path) es e
  get?_none : ∀ path, t.get? path = none ↔ path ∉ t.paths
  findSuffix? : ∀ suffix e,
    t.findSuffix? suffix = some e ↔ IsFirst (fun e => e.EndsWith suffix) es e
  findSuffix?_none : ∀ suffix, t.findSuffix? suffix = none ↔ ∀ e ∈ es, ¬ e.EndsWith suffix

theorem getElem?_paths {path : Text} {n : Nat} :
    t.paths[n]? = some path ↔ ∃ within : n < t.toList.length, t.toList[n].path = path := by
  rw [paths, List.getElem?_eq_some_iff]
  simp only [List.length_map, List.getElem_map]

/-- The index knows the paths of the entries, by their smallest positions. -/
theorem Indexed.isLeast_iff (h : t.Indexed) (path : Text) (i : Nat) :
    t.firstAt[path]? = some i ↔ IsLeast {n : Nat | t.paths[n]? = some path} i := by
  rw [h path, List.findIdx?_eq_some_iff_getElem]
  constructor
  · rintro ⟨within, here, before⟩
    refine ⟨getElem?_paths.mpr ⟨within, beq_iff_eq.mp here⟩, fun n there => ?_⟩
    obtain ⟨_, same⟩ := getElem?_paths.mp there
    exact Nat.le_of_not_lt fun smaller => before n smaller (beq_iff_eq.mpr same)
  · rintro ⟨here, least⟩
    obtain ⟨within, same⟩ := getElem?_paths.mp here
    refine ⟨within, beq_iff_eq.mpr same, fun n smaller there => ?_⟩
    have behind : i ≤ n := least (getElem?_paths.mpr ⟨_, beq_iff_eq.mp there⟩)
    exact Nat.not_lt.mpr behind smaller

/-- **What a table tells whose index is right.** -/
theorem Indexed.tells (h : t.Indexed) : Tells t t.toList where
  entries := rfl
  paths := rfl
  index := h.isLeast_iff
  contains := h.contains_iff
  get? path e := by
    rw [h.get?_eq]
    exact find?_eq_some_iff_isFirst fun e => beq_iff_eq
  get?_none path := by
    rw [h.get?_eq, List.find?_eq_none, paths, List.mem_map]
    simp only [beq_iff_eq, not_exists, not_and]
  findSuffix? suffix e := find?_eq_some_iff_isFirst fun e => e.endsWith_iff suffix
  findSuffix?_none suffix := by
    rw [Contents.findSuffix?, List.find?_eq_none]
    simp only [Entry.endsWith_iff]

/-- What a look-up by path has found it finds ever after. -/
theorem Indexed.get?_offerAll (h : t.Indexed) {path : Text} (found : t.get? path = some e)
    (more : List Offer) : (t.offerAll more).get? path = some e := by
  rw [h.get?_eq] at found
  rw [(h.offerAll more).get?_eq, toList_offerAll, List.find?_append, found, Option.some_or]

/-- What a look-up by suffix has found it finds ever after. -/
theorem findSuffix?_offerAll {suffix : Text} (found : t.findSuffix? suffix = some e)
    (more : List Offer) : (t.offerAll more).findSuffix? suffix = some e := by
  rw [findSuffix?] at found
  rw [findSuffix?, toList_offerAll, List.find?_append, found, Option.some_or]

/-! ### Histories -/

/-- **What tables tell at every moment of their history.**  A table is made of the first offers exactly
if all of them have bytes.  After any later offers, of which some may have failed, it tells the entries
of those that were taken, from the first one on.  One more offer then ends in its entry or in the failure
of its content, and if it fails, the index and the entries stay as they are.  And what was found under a
path or by a suffix is found again, whatever is offered in addition. -/
theorem history_told (initial : List Offer) :
    ((∃ t₀, ofOffers initial = .ok t₀) ↔ ∀ offer ∈ initial, offer.HasBytes) ∧
      ∀ t₀, ofOffers initial = .ok t₀ → ∀ later : List Offer,
        let t := t₀.offerAll later
        Tells t (taken (initial ++ later)) ∧
          (∀ offer, (put offer t).1 = offer.bytes.map fun b => ⟨offer.path, b⟩) ∧
          (∀ offer f, (put offer t).1 = .error f → (put offer t).2 = t) ∧
          ∀ more,
            (∀ path e, t.get? path = some e → (t.offerAll more).get? path = some e) ∧
            ∀ suffix e, t.findSuffix? suffix = some e →
              (t.offerAll more).findSuffix? suffix = some e := by
  constructor
  · constructor
    · rintro ⟨t₀, made⟩
      exact (ofOffers_eq_ok_iff.mp made).1
    · intro has
      exact ⟨_, ofOffers_eq_ok_iff.mpr ⟨has, rfl⟩⟩
  · intro t₀ made later t
    obtain ⟨-, rfl⟩ := ofOffers_eq_ok_iff.mp made
    have indexed : t.Indexed := (indexed_empty.offerAll initial).offerAll later
    have entries : t.toList = taken (initial ++ later) := by
      rw [toList_offerAll, toList_offerAll, toList_empty, List.nil_append, taken, taken, taken,
        List.filterMap_append]
    refine ⟨entries ▸ indexed.tells, fun offer => ?_, fun offer f => snd_put_of_error, fun more => ?_⟩
    · rw [put_eq]
    · exact ⟨fun path e found => indexed.get?_offerAll found more,
        fun suffix e found => findSuffix?_offerAll found more⟩

/-- A path whose first offer failed is indexed where it is taken later, behind entries that came in
between, and keeps that place. -/
theorem refused_path_indexed_later :
    let kml (n : UInt8) : Offer := ⟨"c.kml", .ok (bytesOf [n])⟩
    let initial : List Offer := [⟨"a", .ok (bytesOf [1])⟩, ⟨"b", .ok (bytesOf [2])⟩,
      ⟨"a", .ok (bytesOf [3])⟩]
    let later : List Offer := [⟨"c.kml", (Content.text "4").frozen⟩, ⟨"b", .ok (bytesOf [5])⟩, kml 6]
    ∃ t₀, ofOffers initial = .ok t₀ ∧
      (t₀.offerAll later).toList = [⟨"a", bytesOf [1]⟩, ⟨"b", bytesOf [2]⟩, ⟨"a", bytesOf [3]⟩,
        ⟨"b", bytesOf [5]⟩, ⟨"c.kml", bytesOf [6]⟩] ∧
      (t₀.offerAll later).firstAt[("b" : Text)]? = some 1 ∧
      (t₀.offerAll later).firstAt[("c.kml" : Text)]? = some 4 ∧
      (t₀.offerAll later).get? "c" = none ∧
      ((t₀.offerAll later).offerAll [kml 7]).get? "c.kml" = some ⟨"c.kml", bytesOf [6]⟩ ∧
      ((t₀.offerAll later).offerAll [kml 7]).findSuffix? "ml" = some ⟨"c.kml", bytesOf [6]⟩ := by
  intro kml initial later
  obtain ⟨makes, told⟩ := history_told initial
  have has : ∀ offer ∈ initial, offer.HasBytes := by
    simp only [initial, List.forall_mem_cons, List.not_mem_nil, false_imp_iff, implies_true, and_true]
    exact ⟨⟨_, rfl⟩, ⟨_, rfl⟩, ⟨_, rfl⟩⟩
  obtain ⟨t₀, made⟩ := makes.mpr has
  obtain ⟨tells, -, -, stays⟩ := told t₀ made later
  let listed : List Text := ["a", "b", "a", "b", "c.kml"]
  have paths : (t₀.offerAll later).paths = listed := tells.paths
  have indexed {path : Text} {i : Nat} (here : listed[i]? = some path)
      (before : ∀ n < i, listed[n]? ≠ some path) :
      (t₀.offerAll later).firstAt[path]? = some i := by
    rw [tells.index, paths]
    exact ⟨here, fun n there => Nat.le_of_not_lt fun smaller => before n smaller there⟩
  have split : taken (initial ++ later) = [⟨"a", bytesOf [1]⟩, ⟨"b", bytesOf [2]⟩,
      ⟨"a", bytesOf [3]⟩, ⟨"b", bytesOf [5]⟩] ++ ⟨"c.kml", bytesOf [6]⟩ :: [] := rfl
  have found : (t₀.offerAll later).get? "c.kml" = some ⟨"c.kml", bytesOf [6]⟩ :=
    (tells.get? _ _).mpr ⟨rfl, _, _, split, by decide⟩
  have foundBySuffix : (t₀.offerAll later).findSuffix? "ml" = some ⟨"c.kml", bytesOf [6]⟩ := by
    refine (tells.findSuffix? _ _).mpr ⟨⟨"c.k", rfl⟩, _, _, split, ?_⟩
    simp only [← Entry.endsWith_iff]
    decide
  refine ⟨t₀, made, tells.entries, indexed rfl (by decide), indexed rfl (by decide), ?_,
    (stays [kml 7]).1 _ _ found, (stays [kml 7]).2 _ _ foundBySuffix⟩
  rw [tells.get?_none, paths]
  decide

end Contents

end ZipContainer
