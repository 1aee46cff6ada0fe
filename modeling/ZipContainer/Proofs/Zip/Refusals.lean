import ZipContainer.Proofs.Zip.Members

/-!
# How encoding fails

Entries are packed and written in order, and the first that is refused ends that (`PackRefusal`).
The archive of those before it is completed all the same.  So there are two ways to fail: as the
first entry that is refused does, or because the numbers at the end of an archive do not fit eight
bytes.  `Refusal` says so, and `encode_eq_error_iff` that encoding fails in these ways and in no other:
in particular no size turns out to be too large once it has been packed.

A year that is too early and a name without UTF-8 are noticed as such.  A year that is too late, a
name that is too long and sizes that are too large are only found not to fit.
-/

namespace ZipContainer.Zip

variable {m : WriteMethod} {now : Moment} {es pre post : List Entry} {e : Entry} {f : Failure}

/-- How entries are refused at a moment. -/
inductive Refusal (m : WriteMethod) (now : Moment) (es : List Entry) : Failure → Prop where
  /-- An entry is refused, and none before it; the archive of those would fit. -/
  | entry {f : Failure} (pre : List Entry) (e : Entry) (post : List Entry)
      (split : es = pre ++ e :: post) (packs : ∀ e' ∈ pre, Packs m now e')
      (room : span now (pre.map (packed m)) ≤ maxLong) (refused : PackRefusal m now e f) :
      Refusal m now es f
  /-- The entries from the first on are too large for an archive, together. -/
  | archive (pre post : List Entry) (split : es = pre ++ post) (packs : ∀ e ∈ pre, Packs m now e)
      (room : maxLong < span now (pre.map (packed m))) : Refusal m now es .fieldRange

/-- Either all entries can be packed or there is a first that is refused. -/
theorem packs_or_split (m : WriteMethod) (now : Moment) (es : List Entry) :
    (∀ e ∈ es, Packs m now e) ∨ ∃ pre e post f, es = pre ++ e :: post ∧
      (∀ e' ∈ pre, Packs m now e') ∧ PackRefusal m now e f := by
  induction es with
  | nil => exact .inl nofun
  | cons e es ih =>
      rcases packs_or_refused m now e with packs | ⟨f, refused⟩
      · rcases ih with all | ⟨pre, e', post, f, rfl, before, refused⟩
        · exact .inl (List.forall_mem_cons.mpr ⟨packs, all⟩)
        · exact .inr ⟨e :: pre, e', post, f, rfl, List.forall_mem_cons.mpr ⟨packs, before⟩, refused⟩
      · exact .inr ⟨[], e, es, f, rfl, nofun, refused⟩

/-- What can be packed is, whatever comes after it. -/
theorem upToRefusal_append (packs : ∀ e ∈ pre, Packs m now e) (rest : List (Except Failure Packed)) :
    upToRefusal (pre.map (pack m now) ++ rest) =
      (pre.map (packed m) ++ (upToRefusal rest).1, (upToRefusal rest).2) := by
  induction pre with
  | nil => rfl
  | cons e pre ih =>
      obtain ⟨first, others⟩ := List.forall_mem_cons.mp packs
      rw [List.map_cons, List.cons_append, first.pack_eq, upToRefusal, ih others]
      rfl

/-- Entries that can be packed have numbers that fit. -/
theorem writable_of_packs (packs : ∀ e ∈ es, Packs m now e) :
    ∀ p ∈ es.map (packed m), p.Coded ∧ p.Writable now := by
  intro p hp
  obtain ⟨e, he, rfl⟩ := List.mem_map.mp hp
  have h := packs e he
  exact ⟨coded_packed m e, (writable_packed m now e).mpr ⟨h.late, h.name, h.size, h.packedSize⟩⟩

theorem fitLayout_packed (packs : ∀ e ∈ es, Packs m now e) :
    fitLayout now (es.map (packed m)) = true ↔ span now (es.map (packed m)) ≤ maxLong := by
  cases es with
  | nil => exact iff_of_true rfl (Nat.zero_le _)
  | cons e es => exact fitLayout_iff (packs e List.mem_cons_self).early (writable_of_packs packs)

/-- **Entries that can be packed are encoded**, if there is room for all of them. -/
theorem encode_of_packs (packs : ∀ e ∈ es, Packs m now e)
    (room : span now (es.map (packed m)) ≤ maxLong) :
    encode m now es = .ok (layout now (es.map (packed m))) := by
  have all := upToRefusal_append packs []
  rw [List.append_nil] at all
  simp only [encode, write, all, upToRefusal, List.append_nil, (fitLayout_packed packs).mpr room]
  rfl

/-- Where there is no room for the entries from the first on, that is found first. -/
theorem encode_without_room (packs : ∀ e ∈ pre, Packs m now e)
    (room : maxLong < span now (pre.map (packed m))) :
    encode m now (pre ++ post) = .error .fieldRange := by
  -- There is less room for all that can be packed.
  obtain ⟨all, rest, h, packs', room'⟩ : ∃ all rest, pre ++ post = all ++ rest ∧
      (∀ e ∈ all, Packs m now e) ∧ maxLong < span now (all.map (packed m)) ∧
      (upToRefusal (rest.map (pack m now))).1 = [] := by
    rcases packs_or_split m now post with others | ⟨pre', e, post', f, rfl, others, refused⟩
    · refine ⟨pre ++ post, [], (List.append_nil _).symm, List.forall_mem_append.mpr ⟨packs, others⟩,
        ?_, rfl⟩
      rw [List.map_append]
      exact Nat.lt_of_lt_of_le room (span_le_append _ _)
    · refine ⟨pre ++ pre', e :: post', (List.append_assoc ..).symm,
        List.forall_mem_append.mpr ⟨packs, others⟩, ?_, ?_⟩
      · rw [List.map_append]
        exact Nat.lt_of_lt_of_le room (span_le_append _ _)
      · rw [List.map_cons, refused.pack_eq, upToRefusal]
  have unfit : ¬ fitLayout now (all.map (packed m)) = true := fun fits =>
    Nat.not_lt.mpr ((fitLayout_packed packs').mp fits) room'.1
  rw [encode, write, h, List.map_append, upToRefusal_append packs', room'.2, List.append_nil]
  simp only [Bool.eq_false_iff.mpr unfit]
  rfl

/-- **What is refused is not encoded.** -/
theorem encode_of_refusal (h : Refusal m now es f) : encode m now es = .error f := by
  cases h with
  | entry pre e post split packs room refused =>
      rw [encode, write, split, List.map_append, upToRefusal_append packs, List.map_cons,
        refused.pack_eq, upToRefusal]
      simp only [List.append_nil, (fitLayout_packed packs).mpr room]
      rfl
  | archive pre post split packs room => exact split ▸ encode_without_room packs room

/-- Entries are refused or can be packed and have room. -/
theorem refused_or_packs (m : WriteMethod) (now : Moment) (es : List Entry) :
    (∃ f, Refusal m now es f) ∨
      (∀ e ∈ es, Packs m now e) ∧ span now (es.map (packed m)) ≤ maxLong := by
  rcases packs_or_split m now es with packs | ⟨pre, e, post, f, split, packs, refused⟩
  · rcases Nat.lt_or_ge maxLong (span now (es.map (packed m))) with large | room
    · exact .inl ⟨_, .archive es [] (List.append_nil es).symm packs large⟩
    · exact .inr ⟨packs, room⟩
  · rcases Nat.lt_or_ge maxLong (span now (pre.map (packed m))) with large | room
    · exact .inl ⟨_, .archive pre (e :: post) split packs large⟩
    · exact .inl ⟨f, .entry pre e post split packs room refused⟩

/-- **How encoding fails**, exactly. -/
theorem encode_eq_error_iff : encode m now es = .error f ↔ Refusal m now es f := by
  refine ⟨fun h => ?_, encode_of_refusal⟩
  rcases refused_or_packs m now es with ⟨f', refused⟩ | ⟨packs, room⟩
  · rw [encode_of_refusal refused] at h
    exact Except.error.inj h ▸ refused
  · rw [encode_of_packs packs room] at h
    cases h

/-- **When encoding succeeds**, exactly. -/
theorem encode_eq_ok_iff {b : ByteArray} :
    encode m now es = .ok b ↔
      ((∀ e ∈ es, Packs m now e) ∧ span now (es.map (packed m)) ≤ maxLong) ∧
        b = layout now (es.map (packed m)) := by
  constructor
  · intro h
    rcases refused_or_packs m now es with ⟨f, refused⟩ | ⟨packs, room⟩
    · rw [encode_of_refusal refused] at h
      cases h
    · rw [encode_of_packs packs room] at h
      exact ⟨⟨packs, room⟩, (Except.ok.inj h).symm⟩
  · rintro ⟨⟨packs, room⟩, rfl⟩
    exact encode_of_packs packs room

/-- The names of entries that are encoded have a form in UTF-8. -/
theorem unicode_of_encode {b : ByteArray} (encoded : encode m now es = .ok b) :
    ∀ e ∈ es, (cutName e.path).IsUnicode :=
  fun e he => ((encode_eq_ok_iff.mp encoded).1.1 e he).unicode

/-- In a year that can be stored, names with UTF-8 can only be refused for what does not fit. -/
theorem Refusal.eq_fieldRange (h : Refusal m now es f) (year : Moment.firstYear ≤ now.year)
    (unicode : ∀ e ∈ es, (cutName e.path).IsUnicode) : f = .fieldRange := by
  cases h with
  | archive => rfl
  | entry pre e post split packs room refused =>
      have known := unicode e (split ▸ List.mem_append_right pre List.mem_cons_self)
      cases refused with
      | early early => exact absurd early (Nat.not_lt.mpr year)
      | loose _ surrogates => cases (Text.loose?_eq_none_iff.mpr known).symm.trans surrogates
      | late => rfl
      | long => rfl
      | large => rfl

/-- A name that does not fit its field is refused, and with it all entries. -/
theorem encode_long (year : Moment.firstYear ≤ now.year)
    (unicode : ∀ e ∈ es, (cutName e.path).IsUnicode)
    (long : ∃ e ∈ es, maxField < (cutName e.path).toUTF8.size) :
    encode m now es = .error .fieldRange := by
  obtain ⟨e, he, size⟩ := long
  rcases refused_or_packs m now es with ⟨f, refused⟩ | ⟨packs, -⟩
  · rw [encode_of_refusal refused, refused.eq_fieldRange year unicode]
  · exact absurd (packs e he).name (Nat.not_le.mpr size)

end ZipContainer.Zip
