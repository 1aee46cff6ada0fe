import Mathlib.Data.List.TakeWhile
import ZipContainer.Zip.Encode

/-!
# Names as they are stored

A name is stored as UTF-8 and marked as such, unless it is ASCII: then both of the encodings that a
reader knows give it back.  `nameText_toUTF8` says so of every name that has UTF-8, and
`cutName_cutName` that a
name which was cut at its first NUL is not cut again.  A name without NUL has no zero byte
(`Text.zero_not_mem_toUTF8`).
-/

namespace ZipContainer

/-- The UTF-8 of an ASCII text has a byte for every point. -/
theorem Text.toUTF8_ascii {t : Text} (h : ∀ p ∈ t.toList, p.toNat < 0x80) :
    t.toUTF8.data.toList = t.toList.map fun p => UInt8.ofNat p.toNat := by
  have single (p : Point) (hp : p.toNat < 0x80) :
      String.utf8EncodeChar p.toChar = [UInt8.ofNat p.toNat] := by
    have code : p.toChar.toNat = p.toNat := Point.toNat_toChar (Point.isSurrogate_of_lt hp)
    have low : p.toChar.val ≤ 127 :=
      UInt32.le_iff_toNat_le.mpr (Nat.le_of_lt_succ (code.trans_lt hp))
    rw [String.utf8EncodeChar_eq_singleton (Char.utf8Size_eq_one_iff.mpr low), ← code]
    rfl
  rw [toUTF8, String.toUTF8_eq_toByteArray, ← String.utf8Encode_toList, List.utf8Encode,
    List.toList_data_toByteArray, string, String.toList_ofList]
  generalize t.toList = ps at h
  induction ps with
  | nil => rfl
  | cons p ps ih =>
      rw [List.map_cons, List.flatMap_cons, List.map_cons,
        ih fun p' hp' => h p' (List.mem_cons_of_mem p hp'), single p (h p List.mem_cons_self),
        List.singleton_append]

theorem zero_not_mem_utf8EncodeChar {c : Char} (hc : c ≠ '\x00') :
    0 ∉ String.utf8EncodeChar c := by
  have code : c.val.toNat ≠ 0 := fun h => hc (Char.toNat_inj.mp h)
  intro h
  unfold String.utf8EncodeChar at h
  dsimp only at h
  -- The bytes of a longer form all have their highest bit set.
  split at h
  case' isFalse => split at h
  case' isFalse.isFalse => split at h
  all_goals
    simp only [List.mem_cons, List.not_mem_nil, or_false, ← UInt8.toNat_inj, UInt8.toNat_ofNat',
      UInt8.reduceToNat, Nat.reducePow] at h
    omega

/-- The UTF-8 of a text without NUL has no zero byte. -/
theorem Text.zero_not_mem_toUTF8 {t : Text} (h : Point.nul ∉ t.toList) :
    0 ∉ t.toUTF8.data.toList := by
  rw [toUTF8, String.toUTF8_eq_toByteArray, ← String.utf8Encode_toList, List.utf8Encode,
    List.toList_data_toByteArray, string, String.toList_ofList]
  intro hzero
  obtain ⟨c, hc, hbyte⟩ := List.mem_flatMap.mp hzero
  obtain ⟨p, hp, rfl⟩ := List.mem_map.mp hc
  have nul : p.toChar ≠ '\x00' := fun heq => h (Point.eq_nul_of_toChar heq ▸ hp)
  exact zero_not_mem_utf8EncodeChar nul hbyte

namespace Text.CodePage437

/-- Code page 437 reads ASCII as it is. -/
theorem decode_ascii {t : Text} (h : ∀ p ∈ t.toList, p.toNat < 0x80) :
    (decode t.toUTF8.data.toList : Text) = t := by
  have back (p : Point) (hp : p ∈ t.toList) :
      (decodeByte ∘ fun p => UInt8.ofNat (Point.toNat p)) p = p.toChar := by
    have value : (UInt8.ofNat p.toNat).toNat = p.toNat := by
      rw [UInt8.toNat_ofNat', Nat.mod_eq_of_lt (Nat.lt_trans (h p hp) (by decide))]
    have low : UInt8.ofNat p.toNat < 0x80 := by
      rw [UInt8.lt_iff_toNat_lt, value]
      exact h p hp
    rw [Function.comp_apply, decodeByte_ascii low, value, Point.toChar,
      Point.isSurrogate_of_lt (h p hp)]
    rfl
  rw [decode, toUTF8_ascii h, List.map_map, List.map_congr_left back]
  exact ofString_string fun p hp => Point.isSurrogate_of_lt (h p hp)

end Text.CodePage437

/-- A text that was decoded is spelled by the bytes that it was decoded from. -/
theorem Text.Utf8.toUTF8_of_decode {b : ByteArray} {s : String} (h : decode b = .ok s) :
    s.toUTF8 = b := by
  unfold decode String.fromUTF8? at h
  split at h
  · next hs =>
      split at hs
      · cases h; cases hs; rfl
      · cases hs
  · cases h

namespace Zip

/-- The flags with which a name is stored. -/
def nameFlags (name : Text) : Nat :=
  if name.toList.all fun p => p.toNat < 0x80 then 0 else 2 ^ Flag.utf8Name.bit

/-- **A stored name is understood** as it was written. -/
theorem nameText_toUTF8 {name : Text} (unicode : name.IsUnicode) :
    nameText (nameFlags name) name.toUTF8 = .ok name := by
  unfold nameText nameFlags
  split
  · next hascii =>
      simp only [List.all_eq_true, decide_eq_true_eq] at hascii
      rw [if_neg (by decide), Text.CodePage437.decode_ascii hascii]
  · rw [if_pos (by decide), Text.toUTF8, Text.Utf8.decode_toUTF8, Except.map,
      Text.ofString_string unicode]

theorem noNul_cutName (t : Text) : Point.nul ∉ (cutName t).toList := by
  intro h
  simpa using List.mem_takeWhile_imp h

/-- Cutting a name makes it no longer. -/
theorem size_cutName_le (t : Text) : (cutName t).toUTF8.size ≤ t.toUTF8.size := by
  let isKept (p : Point) : Bool := p ≠ .nul
  have parts : (cutName t).string ++ Text.string ⟨t.toList.dropWhile isKept⟩ = t.string := by
    rw [Text.string, Text.string, ← String.ofList_append, ← List.map_append, cutName,
      List.takeWhile_append_dropWhile, Text.string]
  have size := congrArg String.utf8ByteSize parts
  rw [String.utf8ByteSize_append] at size
  exact Nat.le.intro size

/-- A name without NUL is not cut. -/
theorem cutName_of_noNul {t : Text} (h : Point.nul ∉ t.toList) : cutName t = t := by
  have all : ∀ p ∈ t.toList, decide (p ≠ .nul) = true := by
    intro p hp
    exact decide_eq_true fun heq => h (heq ▸ hp)
  rw [cutName, List.takeWhile_eq_self_iff.mpr all]

/-- A name that was cut is not cut again. -/
theorem cutName_cutName (t : Text) : cutName (cutName t) = cutName t :=
  cutName_of_noNul (noNul_cutName t)

/-- Cutting a name leaves no surrogates in it that it did not hold. -/
theorem isUnicode_cutName {t : Text} (h : t.IsUnicode) : (cutName t).IsUnicode :=
  fun p hp => h p ((List.takeWhile_sublist _).mem hp)

end Zip

end ZipContainer
