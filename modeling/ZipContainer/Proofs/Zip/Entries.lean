import Mathlib.Data.List.Forall2
import ZipContainer.Zip.Decode

/-!
# Decoding entry by entry

The members of an archive are read in order.  The first that fails is the failure of the whole
(`readEntries_eq_error_iff`); if none fails, there is an entry for every file, in order
(`decode_eq_ok_iff`).  What reading a packed member comes to once its data are found is
`readPacked_of_located`.
-/

namespace ZipContainer.Zip

variable {data content : ByteArray} {limit : Option Int} {f : Failure} {r : Record} {bound : Int}
  {start : Nat} {p : Packing} {es : List Entry}

/-! ### Packed members -/

/-- A content within the limit is handed on whole. -/
theorem handedOn_of_within (h : withinLimit limit content.size = true) :
    handedOn limit content = content := by
  cases limit with
  | none => rfl
  | some l =>
      have within : (content.size : Int) ≤ l := by simpa [withinLimit] using h
      rw [handedOn, Nat.min_eq_right (by omega), ByteArray.extract_zero_size]

/-- What reading a member comes to that was opened. -/
theorem readPacked_of_located (hl : locate data r bound = .ok start)
    (hp : Packing.ofCode? r.method = some p) :
    readPacked data limit r bound =
      match Source.read ⟨data, start, p, r.compressedSize, r.size, limit⟩ with
      | .error .wordRange => .error .wordRange
      | .error (.member f) => .error (.member r.name f)
      | .ok (content, hasEnded) =>
        if hasEnded ∧ crc32 content ≠ r.crc then .error (.member r.name (.checksum r.name))
        else if !withinLimit limit (handedOn limit content).size then .error (tooLarge limit r)
        else .ok (handedOn limit content) := by
  simp only [readPacked, hl, hp, bind, Except.bind]
  cases Source.read ⟨data, start, p, r.compressedSize, r.size, limit⟩ with
  | error f => cases f <;> rfl
  | ok read =>
      dsimp only
      split
      · rfl
      · split <;> rfl

/-- What reading comes to where the member ended with a content within the limit. -/
theorem readPacked_of_ended (hl : locate data r bound = .ok start)
    (hp : Packing.ofCode? r.method = some p)
    (hread : Source.read ⟨data, start, p, r.compressedSize, r.size, limit⟩ = .ok (content, true))
    (hwithin : withinLimit limit content.size = true) :
    readPacked data limit r bound =
      if crc32 content ≠ r.crc then .error (.member r.name (.checksum r.name)) else .ok content := by
  rw [readPacked_of_located hl hp, hread]
  dsimp only
  rw [handedOn_of_within hwithin, hwithin]
  simp only [true_and]
  rfl

/-! ### Going through lists -/

/-- Going through a list fails at the first element that fails, if at all. -/
theorem mapM_eq_error_iff {α β : Type} {g : α → Except Failure β} {xs : List α} :
    xs.mapM g = .error f ↔ ∃ pre x post, xs = pre ++ x :: post ∧
      (∀ y ∈ pre, ∃ b, g y = .ok b) ∧ g x = .error f := by
  induction xs with
  | nil =>
      constructor
      · intro h
        cases h
      · rintro ⟨pre, x, post, h, -, -⟩
        cases pre <;> cases h
  | cons x xs ih =>
      rw [List.mapM_cons]
      cases hx : g x with
      | error f' =>
          constructor
          · rintro ⟨⟩
            exact ⟨[], x, xs, rfl, nofun, hx⟩
          · rintro ⟨pre, x', post, h, hpre, hx'⟩
            cases pre with
            | nil =>
                cases h
                exact congrArg Except.error (Except.error.inj (hx.symm.trans hx'))
            | cons y pre =>
                cases h
                obtain ⟨b, hb⟩ := hpre x List.mem_cons_self
                cases hx.symm.trans hb
      | ok b =>
          have rest : (do let bs ← xs.mapM g; pure (b :: bs)) = Except.error f ↔
              xs.mapM g = .error f := by
            cases xs.mapM g <;> simp [bind, Except.bind, pure, Except.pure]
          refine rest.trans (ih.trans ⟨?_, ?_⟩)
          · rintro ⟨pre, x', post, rfl, hpre, hx'⟩
            exact ⟨x :: pre, x', post, rfl, List.forall_mem_cons.mpr ⟨⟨b, hx⟩, hpre⟩, hx'⟩
          · rintro ⟨pre, x', post, h, hpre, hx'⟩
            cases pre with
            | nil => cases h; cases hx.symm.trans hx'
            | cons y pre =>
                cases h
                exact ⟨pre, x', post, rfl, (List.forall_mem_cons.mp hpre).2, hx'⟩

/-- An element of a list has a partner in any list that corresponds to it. -/
theorem exists_of_forall₂ {α β : Type} {R : α → β → Prop} {l : List α} {l' : List β}
    (h : List.Forall₂ R l l') : ∀ a ∈ l, ∃ b, R a b := by
  induction h with
  | nil => nofun
  | cons hab _ ih => exact List.forall_mem_cons.mpr ⟨⟨_, hab⟩, ih⟩

/-- A list corresponds to another if every element of it has a partner. -/
theorem exists_forall₂_iff {α β : Type} {R : α → β → Prop} {l : List α} :
    (∃ l', List.Forall₂ R l l') ↔ ∀ a ∈ l, ∃ b, R a b := by
  constructor
  · rintro ⟨l', h⟩
    exact exists_of_forall₂ h
  · intro h
    induction l with
    | nil => exact ⟨[], .nil⟩
    | cons a l ih =>
        obtain ⟨⟨b, hb⟩, rest⟩ := List.forall_mem_cons.mp h
        obtain ⟨l', hl'⟩ := ih rest
        exact ⟨b :: l', .cons hb hl'⟩

/-! ### Failing -/

/-- The records that stand for files, with their end bounds. -/
def Directory.files (d : Directory) : List (Record × Int) :=
  d.records.filter fun m => !m.1.isDirectory

variable [Zstandard.Decoder]

theorem readEntries_cons (data : ByteArray) (limit : Option Int) (member : Record × Int)
    (members : List (Record × Int)) :
    readEntries data limit (member :: members) =
      match entryOf data limit member with
      | .error f => .error f
      | .ok o => (readEntries data limit members).map (o.toList ++ ·) := by
  simp only [readEntries, List.mapM_cons, bind, Except.bind]
  cases entryOf data limit member with
  | error f => rfl
  | ok o =>
      cases List.mapM (entryOf data limit) members with
      | error f => rfl
      | ok os => cases o <;> rfl

/-- **Reading entries fails at the first that fails**, if at all. -/
theorem readEntries_eq_error_iff {members : List (Record × Int)} :
    readEntries data limit members = .error f ↔
      ∃ pre m post, members = pre ++ m :: post ∧
        (∀ x ∈ pre, ∃ o, entryOf data limit x = .ok o) ∧ entryOf data limit m = .error f := by
  rw [← mapM_eq_error_iff, readEntries]
  cases members.mapM (entryOf data limit) <;> simp [Except.map]

/-! ### Succeeding -/

/-- Decoding delivers the entry for the record. -/
def Delivers (data : ByteArray) (limit : Option Int) (m : Record × Int) (e : Entry) : Prop :=
  e.path = m.1.name ∧ readMember data limit m.1 m.2 = .ok e.content

theorem entryOf_file (hname : r.name ≠ "") (hfile : r.isDirectory = false) :
    entryOf data limit (r, bound) =
      (readMember data limit r bound).map fun content => some ⟨r.name, content⟩ := by
  simp only [entryOf, if_neg hname, hfile]
  rfl

theorem entryOf_directory (hname : r.name ≠ "") (hdirectory : r.isDirectory = true) :
    entryOf data limit (r, bound) = .ok none := by
  simp only [entryOf, if_neg hname, hdirectory, if_true]

/-- Reads what a record stands for, a directory or not. -/
def memberOf (data : ByteArray) (limit : Option Int) (m : Record × Int) : Except Failure Entry :=
  (readMember data limit m.1 m.2).map fun content => ⟨m.1.name, content⟩

theorem memberOf_eq_ok_iff {m : Record × Int} {e : Entry} :
    memberOf data limit m = .ok e ↔ Delivers data limit m e := by
  obtain ⟨path, content⟩ := e
  rw [memberOf, Delivers]
  cases readMember data limit m.1 m.2 <;> simp [Except.map, eq_comm]

theorem memberOf_eq_error_iff {m : Record × Int} :
    memberOf data limit m = .error f ↔ readMember data limit m.1 m.2 = .error f := by
  rw [memberOf]
  cases readMember data limit m.1 m.2 <;> simp [Except.map]

/-- A member is passed over, or is a file that is read. -/
theorem entryOf_eq_ok_iff {m : Record × Int} {e? : Option Entry} :
    entryOf data limit m = .ok e? ↔ m.1.name ≠ "" ∧
      (m.1.isDirectory = true ∧ e? = none ∨
        m.1.isDirectory = false ∧ ∃ e, e? = some e ∧ Delivers data limit m e) := by
  obtain ⟨r, bound⟩ := m
  by_cases hname : r.name = ""
  · simp [entryOf, hname]
  cases hdirectory : r.isDirectory with
  | true => simp [entryOf_directory hname hdirectory, hname, eq_comm]
  | false =>
      rw [entryOf_file hname hdirectory]
      constructor
      · intro h
        cases hread : readMember data limit r bound with
        | error f => rw [hread] at h; cases h
        | ok content =>
            rw [hread] at h
            cases h
            exact ⟨hname, .inr ⟨rfl, _, rfl, rfl, hread⟩⟩
      · rintro ⟨-, ⟨⟨⟩, -⟩ | ⟨-, ⟨path, content⟩, rfl, rfl, hread⟩⟩
        dsimp only at hread
        rw [hread]
        rfl

theorem readEntries_cons_eq_ok_iff {m : Record × Int} {members : List (Record × Int)} :
    readEntries data limit (m :: members) = .ok es ↔
      ∃ e? es', entryOf data limit m = .ok e? ∧ readEntries data limit members = .ok es' ∧
        es = e?.toList ++ es' := by
  rw [readEntries_cons]
  cases entryOf data limit m with
  | error f => simp
  | ok e? => cases readEntries data limit members <;> simp [Except.map, eq_comm]

/-- **Reading entries succeeds** exactly if all names are there and every file is read; the entries
are then those of the files, in order. -/
theorem readEntries_eq_ok_iff {members : List (Record × Int)} :
    readEntries data limit members = .ok es ↔
      (∀ m ∈ members, m.1.name ≠ "") ∧
        List.Forall₂ (Delivers data limit) (members.filter fun m => !m.1.isDirectory) es := by
  induction members generalizing es with
  | nil =>
      constructor
      · rintro ⟨⟩
        exact ⟨fun _ hm => absurd hm List.not_mem_nil, .nil⟩
      · rintro ⟨-, ⟨⟩⟩
        rfl
  | cons m members ih =>
      rw [readEntries_cons_eq_ok_iff, List.forall_mem_cons]
      constructor
      · rintro ⟨e?, es', hm, hes', rfl⟩
        obtain ⟨hnames, hall⟩ := ih.mp hes'
        obtain ⟨hname, ⟨hdirectory, rfl⟩ | ⟨hfile, e, rfl, hdelivers⟩⟩ := entryOf_eq_ok_iff.mp hm
        · rw [List.filter_cons_of_neg (by simp [hdirectory])]
          exact ⟨⟨hname, hnames⟩, hall⟩
        · rw [List.filter_cons_of_pos (by simp [hfile])]
          exact ⟨⟨hname, hnames⟩, .cons hdelivers hall⟩
      · rintro ⟨⟨hname, hnames⟩, hall⟩
        cases hdirectory : m.1.isDirectory with
        | true =>
            rw [List.filter_cons_of_neg (by simp [hdirectory])] at hall
            have passed : entryOf data limit m = .ok none :=
              entryOf_eq_ok_iff.mpr ⟨hname, .inl ⟨hdirectory, rfl⟩⟩
            exact ⟨none, es, passed, ih.mpr ⟨hnames, hall⟩, rfl⟩
        | false =>
            rw [List.filter_cons_of_pos (by simp [hdirectory])] at hall
            cases hall with
            | @cons _ e _ es' hdelivers hall =>
                have read : entryOf data limit m = .ok (some e) :=
                  entryOf_eq_ok_iff.mpr ⟨hname, .inr ⟨hdirectory, e, rfl, hdelivers⟩⟩
                exact ⟨some e, es', read, ih.mpr ⟨hnames, hall⟩, rfl⟩

/-- **Reading entries is reading the files one by one**, if all names are there. -/
theorem readEntries_eq_mapM {members : List (Record × Int)} (named : ∀ m ∈ members, m.1.name ≠ "") :
    readEntries data limit members =
      (members.filter fun m => !m.1.isDirectory).mapM (memberOf data limit) := by
  induction members with
  | nil => rfl
  | cons m members ih =>
      obtain ⟨hname, hnames⟩ := List.forall_mem_cons.mp named
      rw [readEntries_cons, ih hnames]
      cases hdirectory : m.1.isDirectory with
      | true =>
          rw [List.filter_cons_of_neg (by simp [hdirectory]), entryOf_directory hname hdirectory]
          cases (members.filter fun m => !m.1.isDirectory).mapM (memberOf data limit) <;> rfl
      | false =>
          rw [List.filter_cons_of_pos (by simp [hdirectory]), entryOf_file hname hdirectory,
            List.mapM_cons, memberOf]
          cases readMember data limit m.1 m.2 <;> rfl

/-- Where reading entries succeeds, each record is read or passed over. -/
theorem entryOf_of_readEntries {members : List (Record × Int)}
    (h : readEntries data limit members = .ok es) :
    ∀ m ∈ members, ∃ e?, entryOf data limit m = .ok e? := by
  induction members generalizing es with
  | nil => exact fun _ hm => absurd hm List.not_mem_nil
  | cons m members ih =>
      obtain ⟨e?, es', hm, hes', -⟩ := readEntries_cons_eq_ok_iff.mp h
      exact List.forall_mem_cons.mpr ⟨⟨e?, hm⟩, ih hes'⟩

/-- **Decoding succeeds** exactly if the data begin like an archive with a readable directory, all
names are there and every file is read; the entries are then those of the files, in order. -/
theorem decode_eq_ok_iff :
    decode data limit = .ok es ↔ isArchive data = true ∧ ∃ d, readDirectory data = .ok d ∧
      (∀ m ∈ d.records, m.1.name ≠ "") ∧ List.Forall₂ (Delivers data limit) d.files es := by
  unfold decode
  cases isArchive data with
  | false => simp
  | true =>
      cases readDirectory data with
      | error f => simp
      | ok d =>
          simp only [Bool.not_true, Bool.false_eq_true, if_false, readEntries_eq_ok_iff, true_and,
            Except.ok.injEq, exists_eq_left']
          rfl

end ZipContainer.Zip
