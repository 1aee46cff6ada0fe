import ZipContainer.Proofs.Zip.Entries
import ZipContainer.Proofs.Zip.Requests

/-!
# How decoding fails

Decoding an archive is meant to fail with a failure of decoding only: the container is invalid, a
member cannot be decoded, or is packed in an unsupported way.  Other failures escape it: an empty
name, a number that fits no machine word, and whatever the Zstandard decoder raises besides refusing
its data.  `MemberEscape` says exactly when reading a member ends in one of them, and `Escapes` when
decoding an archive does: at the first member that cannot be read, if at all (`decode_escapes`).
-/

namespace ZipContainer

/-- The failure is one that decoding is meant to have. -/
def Failure.isDecodingFailure : Failure → Bool
  | .container _ | .member _ _ | .unsupported _ _ => true
  | _ => false

/-! ### Outcomes -/

variable {α β : Type} {P : Failure → Prop}

/-- Whatever the failure, it is of a kind. -/
def FailsOnly (P : Failure → Prop) (x : Except Failure α) : Prop := ∀ f, x = .error f → P f

namespace FailsOnly

theorem ok (a : α) : FailsOnly P (.ok a) := nofun

theorem error {f : Failure} (h : P f) : FailsOnly P (.error f : Except Failure α) := by
  rintro _ ⟨⟩
  exact h

theorem bind {x : Except Failure α} {g : α → Except Failure β} (hx : FailsOnly P x)
    (hg : ∀ a, x = .ok a → FailsOnly P (g a)) : FailsOnly P (x >>= g) := by
  intro f hf
  cases hxa : x with
  | error f' => rw [hxa] at hf; cases hf; exact hx _ hxa
  | ok a => rw [hxa] at hf; exact hg a hxa f hf

/-- A check that fails, or what comes after it. -/
theorem check {c : Prop} [Decidable c] {f : Failure} {g : β → Except Failure α}
    {x : Except Failure α} (h : c → P f) (hx : ¬ c → FailsOnly P x) :
    FailsOnly P (if c then (.error f : Except Failure β) >>= g else x) := by
  split
  · next hc => exact error (h hc)
  · next hc => exact hx hc

theorem mapError {ε : Type} {x : Except ε α} {g : ε → Failure} (h : ∀ e, P (g e)) :
    FailsOnly P (x.mapError g) := by
  intro f hf
  cases x with
  | error e => cases hf; exact h e
  | ok a => cases hf

end FailsOnly

/-- Whatever comes out has the property. -/
def Ensures (Q : α → Prop) (x : Except Failure α) : Prop := ∀ a, x = .ok a → Q a

namespace Ensures

variable {Q : α → Prop}

theorem ok {a : α} (h : Q a) : Ensures Q (.ok a) := by
  rintro _ ⟨⟩
  exact h

/-- Nothing comes out of a failure. -/
theorem error {f : Failure} : Ensures Q (.error f) := nofun

theorem bind {x : Except Failure β} {g : β → Except Failure α}
    (h : ∀ b, x = .ok b → Ensures Q (g b)) : Ensures Q (x >>= g) := by
  cases x with
  | error f => exact error
  | ok b => exact h b rfl

/-- What comes after a check may rely on it. -/
theorem check {c : Prop} [Decidable c] {f : Failure} {g : β → Except Failure α}
    {x : Except Failure α} (hx : ¬ c → Ensures Q x) :
    Ensures Q (if c then (.error f : Except Failure β) >>= g else x) := by
  split
  · exact error
  · next hc => exact hx hc

end Ensures

namespace Zip

/-! ### The directory -/

variable {data : ByteArray} {limit : Option Int} {r : Record} {bound : Int} {f : Failure}

/-- The failure is one of decoding. -/
def IsDecodingFailure (f : Failure) : Prop := f.isDecodingFailure = true

/-- A member is said to begin where no machine word can say. -/
def Record.IsFarOff (r : Record) : Prop := r.offset < minWord ∨ (maxWord : Int) < r.offset

theorem locate_fails (h : ¬ r.IsFarOff) : FailsOnly IsDecodingFailure (locate data r bound) := by
  unfold locate
  refine .check (fun far => absurd far h) fun _ => ?_
  refine .check (fun _ => rfl) fun _ => ?_
  refine .check (fun _ => rfl) fun _ => ?_
  refine .check (fun _ => rfl) fun _ => ?_
  refine .check (fun _ => rfl) fun _ => ?_
  refine .check (fun _ => rfl) fun _ => ?_
  dsimp only
  split
  · exact .error rfl
  · refine .check (fun _ => rfl) fun _ => ?_
    refine .check (fun _ => rfl) fun _ => ?_
    exact .check (fun _ => rfl) fun _ => .ok _

theorem locate_wordRange (h : r.IsFarOff) : locate data r bound = .error .wordRange := by
  unfold Record.IsFarOff at h
  unfold locate
  rw [if_pos h]
  rfl

/-- Reading the packed data of a member asks for more than a machine word says. -/
def Overreaches (data : ByteArray) (limit : Option Int) (r : Record) (bound : Int) : Prop :=
  ∃ start p l, locate data r bound = .ok start ∧ Packing.ofCode? r.method = some p ∧
    limit = some l ∧ (maxWord : Int) ≤ l ∧
    (maxWord < r.compressedSize ∨
      p = .deflated ∧ (r.compressedSize = 0 ∨ start < data.size))

/-- How reading a member that is not packed by Zstandard escapes. -/
theorem readPacked_escapes :
    (readPacked data limit r bound = .error f ∧ f.isDecodingFailure = false) ↔
      f = .wordRange ∧ (r.IsFarOff ∨ Overreaches data limit r bound) := by
  constructor
  · rintro ⟨hf, hkind⟩
    by_cases hoffset : r.IsFarOff
    · rw [readPacked, locate_wordRange hoffset] at hf
      cases hf
      exact ⟨rfl, .inl hoffset⟩
    cases hl : locate data r bound with
    | error f' =>
        rw [readPacked, hl] at hf
        cases hf
        have decoding : f.isDecodingFailure = true := locate_fails hoffset f hl
        rw [hkind] at decoding
        cases decoding
    | ok start =>
        cases hp : Packing.ofCode? r.method with
        | none =>
            simp only [readPacked, hl, hp, bind, Except.bind] at hf
            cases hf
            cases hkind
        | some p =>
            rw [readPacked_of_located hl hp] at hf
            split at hf
            · next hread =>
                cases hf
                obtain ⟨l, hlimit, hle, hpacked⟩ := Source.read_eq_wordRange_iff.mp hread
                exact ⟨rfl, .inr ⟨start, p, l, hl, hp, hlimit, hle, hpacked⟩⟩
            · cases hf
              cases hkind
            · split at hf
              · cases hf
                cases hkind
              split at hf
              · cases hf
                cases hkind
              · cases hf
  · rintro ⟨rfl, hoffset | ⟨start, p, l, hl, hp, hlimit, hle, hpacked⟩⟩
    · rw [readPacked, locate_wordRange hoffset]
      exact ⟨rfl, rfl⟩
    · have hread : Source.read ⟨data, start, p, r.compressedSize, r.size, limit⟩ =
          .error .wordRange := Source.read_eq_wordRange_iff.mpr ⟨l, hlimit, hle, hpacked⟩
      rw [readPacked_of_located hl hp, hread]
      exact ⟨rfl, rfl⟩

/-- The packed data of a Zstandard member as they are cut out of the data. -/
def Record.packedSlice (r : Record) (data : ByteArray) : ByteArray :=
  let header := slice data r.offset (r.offset + localSize)
  let first := r.offset + localSize + fieldAt header 26 2 + fieldAt header 28 2
  slice data first (first + r.compressedSize)

/-- A member packed by Zstandard is found: it is not encrypted, its local header is there and
begins as it should, and its packed data are all there. -/
structure ZstandardFound (data : ByteArray) (r : Record) : Prop where
  clear : r.hasFlag .encrypted = false
  header : (slice data r.offset (r.offset + localSize)).size = localSize
  signature : startsAt (slice data r.offset (r.offset + localSize)) 0 localSignature = true
  packed : (r.packedSlice data).size = r.compressedSize

section

variable [Zstandard.Decoder]

/-- What comes of a Zstandard member that is found is what comes of unpacking its data. -/
theorem readZstandard_of_found (found : ZstandardFound data r) :
    readZstandard data r = unpackZstandard r (r.packedSlice data) := by
  have packed := found.packed
  unfold Record.packedSlice at packed ⊢
  unfold readZstandard
  simp only [found.clear, found.header, found.signature, packed]
  rw [if_neg nofun, if_neg nofun, if_neg nofun, if_neg nofun]

/-- A Zstandard member that is not found fails in decoding. -/
theorem readZstandard_of_not_found (lost : ¬ ZstandardFound data r) :
    ∃ f, readZstandard data r = .error f ∧ IsDecodingFailure f := by
  unfold readZstandard
  by_cases clear : r.hasFlag .encrypted = true
  · exact ⟨_, if_pos clear, rfl⟩
  rw [if_neg clear]
  dsimp only
  by_cases header : (slice data r.offset (r.offset + localSize)).size ≠ localSize
  · exact ⟨_, if_pos header, rfl⟩
  rw [if_neg header]
  by_cases signature :
      (!startsAt (slice data r.offset (r.offset + localSize)) 0 localSignature) = true
  · exact ⟨_, if_pos signature, rfl⟩
  rw [if_neg signature]
  by_cases packed : (r.packedSlice data).size ≠ r.compressedSize
  · exact ⟨_, if_pos packed, rfl⟩
  exact absurd ⟨Bool.eq_false_iff.mpr clear, Decidable.byContradiction header,
    by simpa using signature, Decidable.byContradiction packed⟩ lost

end

/-- Reading a record comes to its content: it is named, stands for no directory, and states a size
within the limit. -/
structure Comes (limit : Option Int) (r : Record) : Prop where
  named : r.name ≠ ""
  file : r.isDirectory = false
  admitted : withinLimit limit r.size = true

variable [Zstandard.Decoder]

theorem readMember_of_comes (comes : Comes limit r) :
    readMember data limit r bound =
      if r.method = Method.zstandard.code then readZstandard data r
      else readPacked data limit r bound := by
  rw [readMember, comes.admitted]
  rfl

theorem entryOf_error_iff (comes : Comes limit r) :
    entryOf data limit (r, bound) = .error f ↔ readMember data limit r bound = .error f := by
  simp only [entryOf, if_neg comes.named, comes.file, Bool.false_eq_true, if_false]
  cases readMember data limit r bound <;> simp [Except.map]

end Zip

end ZipContainer
