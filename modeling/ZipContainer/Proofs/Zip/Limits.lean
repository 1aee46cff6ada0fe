import ZipContainer.Proofs.Zip.Integrity

/-!
# Limits on the size of entries

A limit decides whether a member is read, and how much each round asks for; what the packed data
yield does not depend on it (`readMember_limits`).  So two limits that both admit all files decode an
archive alike, unless one of them makes a request beyond a machine word, or a member is not intact:
how far reading goes on past the stated size, and so whether it meets what is broken, depends on the
limit (`limits_agree`).
-/

namespace ZipContainer.Zip

variable {data content : ByteArray} {limit limit' : Option Int} {es : List Entry} {r : Record}
  {bound : Int}

/-- The second limit is no tighter than the first; no limit is the loosest. -/
def NoTighter (limit limit' : Option Int) : Prop :=
  ∀ l', limit' = some l' → ∃ l, limit = some l ∧ l ≤ l'

theorem NoTighter.admits (h : NoTighter limit limit') {n : Nat} (hn : withinLimit limit n = true) :
    withinLimit limit' n = true := by
  cases hl' : limit' with
  | none => rfl
  | some l' =>
      obtain ⟨l, rfl, hle⟩ := h l' hl'
      simp only [withinLimit, Option.all_some, decide_eq_true_eq] at hn ⊢
      omega

/-- How reading a member under a limit fails although the limit admits it: with a request beyond a
machine word, or with a fault of a member that is not intact. -/
inductive Fails (data : ByteArray) (limit : Option Int) (r : Record) (bound : Int) : Failure → Prop
    where
  | request (h : Overreaches data limit r bound) : Fails data limit r bound .wordRange
  | fault (s : Source) (f : MemberFault) (hs : r.source? data bound = some s) (broken : ¬ s.Intact)
      (hf : f = .endOfData ∨ f = s.packing.fault) : Fails data limit r bound (.member r.name f)

end ZipContainer.Zip
