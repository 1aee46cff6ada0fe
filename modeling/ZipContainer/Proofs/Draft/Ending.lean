import ZipContainer.Proofs.Draft.Paths
import ZipContainer.Proofs.Draft.Runs
import ZipContainer.Proofs.Zip.Refusals
import ZipContainer.Zstandard.Frame

/-!
# How ending a draft fails

Finishing a draft fails as its format does, if the draft is not finished yet, and leaving a block
of work on it fails as finishing it does, or else as the block (`perform_finish_eq_some_iff`,
`failure_leave`).

A draft of the usual format is meant to fail with a failure of encoding only.  What comes in the way
are numbers that do not fit their fields: a year after the last that can be stored, a name longer than
its field can say, and sizes beyond eight bytes are not checked, neither by the draft nor by the
format.  `encoding_fails_exactly` says when that happens, and that nothing else does.
-/

namespace ZipContainer.Draft

variable {d : Draft} {f : Failure}

/-- Finishing fails exactly as encoding does, and only once. -/
theorem perform_finish_eq_some_iff (d : Draft) (w : Workspace) :
    (d.perform .finish w).1.2 = some f ↔
      d.takesEntries = true ∧ d.format.encode w.clock d.contents.toList = .error f := by
  cases takes : d.takesEntries with
  | false =>
      rw [perform_late takes]
      simp [Operation.lateReport, Operation.isAdding, Operation.endReport, Operation.outcome]
  | true =>
      obtain ⟨place, unfinished, opened⟩ := takesEntries_iff.mp takes
      rw [perform_ending rfl unfinished opened]
      cases d.format.encode w.clock d.contents.toList <;> simp [Operation.outcome]

/-- A failure to finish takes the place of the one that the block ended in. -/
theorem failure_leave (d : Draft) (failure : Option Failure) (w : Workspace) :
    (d.perform (.leave failure) w).1.2 = (d.perform .finish w).1.2.or failure := by
  simp only [perform, leave_eq]
  cases (d.finish w).1.2 <;> rfl

/-! ### Names of one character, repeated -/

theorem size_replicate {t : Text} {n : Nat} (h : t.toList = List.replicate n (Point.ofChar 'a')) :
    t.toUTF8.size = n := by
  have ascii : ∀ p ∈ t.toList, p.toNat < 0x80 := by
    intro p hp
    rw [h] at hp
    rw [List.eq_of_mem_replicate hp]
    decide
  have bytes := congrArg List.length (Text.toUTF8_ascii ascii)
  rwa [List.length_map, h, List.length_replicate] at bytes

theorem isUnicode_replicate {t : Text} {n : Nat}
    (h : t.toList = List.replicate n (Point.ofChar 'a')) : t.IsUnicode := by
  intro p hp
  rw [h] at hp
  rw [List.eq_of_mem_replicate hp]
  decide

theorem isCanonical_replicate {n : Nat} (hn : n ≠ 0) :
    EntryPath.IsCanonical (List.replicate n (Point.ofChar 'a')) := by
  have name : EntryPath.IsName (List.replicate n (Point.ofChar 'a')) := by
    have only (p : Point) (hp : p ∈ List.replicate n (Point.ofChar 'a')) : p = Point.ofChar 'a' :=
      List.eq_of_mem_replicate hp
    have nonempty : Point.ofChar 'a' ∈ List.replicate n (Point.ofChar 'a') :=
      List.mem_replicate.mpr ⟨hn, rfl⟩
    exact {
      ne_nil := List.ne_nil_of_mem nonempty
      ne_dot := fun h => absurd (h ▸ nonempty) (by decide)
      ne_dots := fun h => absurd (h ▸ nonempty) (by decide)
      free := fun p hp => only p hp ▸ rfl
      noNul := fun h => absurd (only _ h) (by decide) }
  exact ⟨[List.replicate n (Point.ofChar 'a')], List.cons_ne_nil _ _, by simpa using name,
    (List.intercalate_singleton ..).symm⟩

/-! ### Ending -/

/-- What the usual format refuses is a failure of encoding, or a number that does not fit. -/
theorem kind_of_refusal {m : Zip.WriteMethod} {now : Moment} {es : List Entry}
    (h : Zip.Refusal m now es f) : f = .fieldRange ∨ ∃ fault, f = .encode fault := by
  cases h with
  | archive => exact .inl rfl
  | entry _ _ _ _ _ _ refused =>
      cases refused with
      | early | loose => exact .inr ⟨_, rfl⟩
      | late | long | large => exact .inl rfl

/-- **How encoding fails, and with it a draft**, exactly.  Entries with paths that normalising
yields are stored under these paths.  They are refused for the year, a name or a size, or all
together for their size, and else encoded; a refusal is a failure of encoding, or a number that does not
fit its field.  A draft of the usual format, whatever was done with it, lists such paths.  Finishing it
fails with the refusal of its entries, if it is not finished yet, and not otherwise; leaving a block of
work on it fails so as well, or as the block did; and giving it up does not fail. -/
theorem encoding_fails_exactly [Zstandard.Decoder] (m : Zip.WriteMethod) (limit : Option Int) :
    (∀ now es, (∀ e ∈ es, ∃ p, EntryPath.normalize p = .ok e.path) →
      (∀ e ∈ es, Zip.cutName e.path = e.path) ∧
      (∀ f, Zip.encode m now es = .error f ↔ Zip.Refusal m now es f) ∧
      ((∃ b, Zip.encode m now es = .ok b) ↔ ∀ f, ¬ Zip.Refusal m now es f) ∧
      ∀ f, Zip.Refusal m now es f → f = .fieldRange ∨ ∃ fault, f = .encode fault) ∧
    ∀ d : Draft, d.Reachable → d.format = Zip.format m limit → ∀ w,
      (∀ e ∈ d.contents.toList, ∃ p, EntryPath.normalize p = .ok e.path) ∧
      (∀ f, (d.perform .finish w).1.2 = some f ↔
        d.takesEntries = true ∧ Zip.Refusal m w.clock d.contents.toList f) ∧
      (∀ failure, (d.perform (.leave failure) w).1.2 = (d.perform .finish w).1.2.or failure) ∧
      (d.perform .giveUp w).1.2 = none := by
  refine ⟨fun now es paths => ⟨fun e he => ?_, fun f => Zip.encode_eq_error_iff, ?_,
    fun f => kind_of_refusal⟩, fun d reachable usual w => ⟨?_, fun f => ?_,
    fun failure => failure_leave d failure w, rfl⟩⟩
  · exact Zip.cutName_of_isCanonical (EntryPath.isCanonical_of_normalize (paths e he).choose_spec)
  · rcases encoded : Zip.encode m now es with f | b
    · exact iff_of_false nofun fun free => free f (Zip.encode_eq_error_iff.mp encoded)
    · refine iff_of_true ⟨b, rfl⟩ fun f refused => ?_
      cases encoded.symm.trans (Zip.encode_eq_error_iff.mpr refused)
  · exact fun e he => reachable.normalized he
  · rw [perform_finish_eq_some_iff, usual, ← Zip.encode_eq_error_iff]
    rfl

open scoped Zstandard in
/-- A name of 65536 characters is accepted.  It is not written, and neither is the shortest of names
in the year 2108, nor in 1979, nor a name that is half a character in any year; only the last two are
failures of encoding.  A draft with the long name fails to finish, also where that takes the place of
the failure that a block ended in. -/
theorem long_name_not_written :
    let es (name : Text) : List Entry := [⟨name, bytesOf [1]⟩]
    let half : Text := ⟨[⟨0xD800⟩]⟩
    Zip.encode .stored ⟨2108, 1, 1, 0, 0, 0⟩ (es "a") = .error .fieldRange ∧
    Zip.encode .stored ⟨1979, 1, 1, 0, 0, 0⟩ (es "a") = .error (.encode .beforeFirstYear) ∧
    EntryPath.normalize half = .ok half ∧
    Zip.encode .stored ⟨2108, 1, 1, 0, 0, 0⟩ (es half) =
      .error (.encode (.loose ⟨0, 1, ⟨0xD800⟩⟩)) ∧
    ∃ long : Text, long.toList = List.replicate 65536 (Point.ofChar 'a') ∧
      EntryPath.normalize long = .ok long ∧
      Zip.encode .stored ⟨2020, 2, 3, 4, 5, 6⟩ (es long) = .error .fieldRange ∧
      ∃ (d : Draft) (w : Workspace), d.Reachable ∧ d.contents.paths = [long] ∧
        (d.perform .finish w).1.2 = some .fieldRange ∧
        (d.perform (.leave (some .emptyName)) w).1.2 = some .fieldRange := by
  intro es half
  have short : EntryPath.normalize "a" = .ok "a" := rfl
  have halved : EntryPath.normalize half = .ok half := by decide +kernel
  obtain ⟨fails, ends⟩ := encoding_fails_exactly .stored none
  have paths {name : Text} (h : EntryPath.normalize name = .ok name) :
      ∀ e ∈ es name, ∃ p, EntryPath.normalize p = .ok e.path := by
    intro e he
    exact ⟨name, List.mem_singleton.mp he ▸ h⟩
  -- The only entry is refused, and there is room for none.
  have first {now : Moment} {name : Text} {f : Failure}
      (refused : Zip.PackRefusal .stored now ⟨name, bytesOf [1]⟩ f) :
      Zip.Refusal .stored now (es name) f :=
    .entry [] _ [] rfl nofun (Nat.zero_le _) refused
  obtain ⟨long, points⟩ : ∃ long : Text, long.toList = List.replicate 65536 (Point.ofChar 'a') :=
    ⟨⟨_⟩, rfl⟩
  have canonical : EntryPath.IsCanonical long.toList := points ▸ isCanonical_replicate (by decide)
  have drive : EntryPath.beginsWithDrive long.toList = false := by rw [points]; rfl
  have normal : EntryPath.normalize long = .ok long := by
    rw [EntryPath.normalize_of_isCanonical canonical, drive]
    rfl
  have refused : Zip.PackRefusal .stored ⟨2020, 2, 3, 4, 5, 6⟩ ⟨long, bytesOf [1]⟩ .fieldRange := by
    have cut : Zip.cutName long = long := Zip.cutName_of_isCanonical canonical
    refine .long (by decide) ?_ ?_
    · exact cut.symm ▸ isUnicode_replicate points
    · rw [cut, size_replicate points]
      decide
  refine ⟨?_, ?_, halved, ?_, long, points, normal, ?_, ?_⟩
  · exact ((fails _ _ (paths short)).2.1 _).mpr (first (.late (by decide) (by decide)))
  · exact ((fails _ _ (paths short)).2.1 _).mpr (first (.early (by decide)))
  · exact ((fails _ _ (paths halved)).2.1 _).mpr (first (.loose (by decide) rfl))
  · exact ((fails _ _ (paths normal)).2.1 _).mpr (first refused)
  · let w : Workspace := ⟨.empty, ⟨2020, 2, 3, 4, 5, 6⟩, #[], []⟩
    let d₀ : Draft := ⟨"d", Zip.format .stored none, some ["d"], false, .empty⟩
    let op : Operation := .addStrict (.text long) (.bytes (bytesOf [1]))
    have opened : FileTree.empty.openEmpty "d" =
        .ok (FileTree.empty.set ["d"] (.file ByteArray.empty), ["d"]) := rfl
    have created := create_eq "d" (Zip.format .stored none) w
    rw [opened] at created
    have added : d₀.perform op w = _ := perform_adding rfl rfl w
    have entry : op.entry? = some ⟨long, bytesOf [1]⟩ := by
      simp only [op, Operation.entry?, entryFor_text normal]
      rfl
    rw [entry] at added
    have reachable := (Reachable.created created).performed op w
    rw [added] at reachable
    obtain ⟨-, finish, leave, -⟩ := ends _ reachable rfl w
    have finished := (finish .fieldRange).mpr ⟨rfl, first refused⟩
    refine ⟨_, w, reachable, rfl, finished, ?_⟩
    rw [leave, finished]
    rfl

end ZipContainer.Draft
