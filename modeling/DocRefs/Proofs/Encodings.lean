import Mathlib
import DocRefs.Disk.Texts

/-!
# Reading what was written

Every encoding reads back the texts that it can write, and a text without a carriage return keeps
its line endings when it is read.
-/

namespace DocRefs

namespace Encoding

theorem toNat_ofNat_byte {n : Nat} (h : n < 256) : (UInt8.ofNat n).toNat = n := by
  rw [UInt8.toNat_ofNat', Nat.mod_eq_of_lt h]

theorem continuation?_ofNat {lo hi n : Nat} (hlo : lo ≤ n) (hhi : n ≤ hi) (hbyte : n < 256) :
    continuation? lo hi (UInt8.ofNat n) = some (n - 0x80) := by
  rw [continuation?, toNat_ofNat_byte hbyte, if_pos ⟨hlo, hhi⟩]

theorem decodeUtf8_two {n : Nat} (hlo : 0x80 ≤ n) (hhi : n < 0x800) (bs : Bytes) :
    decodeUtf8 (UInt8.ofNat (0xC0 + n / 0x40) :: UInt8.ofNat (0x80 + n % 0x40) :: bs) =
      (decodeUtf8 bs).map (Char.ofNat n :: ·) := by
  have hlead := toNat_ofNat_byte (show 0xC0 + n / 0x40 < 256 by omega)
  have hcont := continuation?_ofNat (show 0x80 ≤ 0x80 + n % 0x40 by omega)
    (show 0x80 + n % 0x40 ≤ 0xBF by omega) (by omega)
  have hvalue : (0xC0 + n / 0x40 - 0xC0) * 0x40 + (0x80 + n % 0x40 - 0x80) = n := by omega
  rw [decodeUtf8.eq_def]
  simp only [hlead, hcont, hvalue, Option.bind_eq_bind, Option.bind_some]
  rw [if_neg (by omega), if_pos (by omega)]
  cases decodeUtf8 bs <;> rfl

theorem decodeUtf8_three {n : Nat} (hlo : 0x800 ≤ n) (hhi : n < 0x10000)
    (hsurrogate : n < 0xD800 ∨ 0xDFFF < n) (bs : Bytes) :
    decodeUtf8 (UInt8.ofNat (0xE0 + n / 0x1000) :: UInt8.ofNat (0x80 + n / 0x40 % 0x40) ::
        UInt8.ofNat (0x80 + n % 0x40) :: bs) =
      (decodeUtf8 bs).map (Char.ofNat n :: ·) := by
  have hlead := toNat_ofNat_byte (show 0xE0 + n / 0x1000 < 256 by omega)
  have hfirst : continuation? (if 0xE0 + n / 0x1000 = 0xE0 then 0xA0 else 0x80)
      (if 0xE0 + n / 0x1000 = 0xED then 0x9F else 0xBF) (UInt8.ofNat (0x80 + n / 0x40 % 0x40)) =
      some (0x80 + n / 0x40 % 0x40 - 0x80) := by
    apply continuation?_ofNat
    · split <;> omega
    · split <;> omega
    · omega
  have hsecond := continuation?_ofNat (show 0x80 ≤ 0x80 + n % 0x40 by omega)
    (show 0x80 + n % 0x40 ≤ 0xBF by omega) (by omega)
  have hvalue : ((0xE0 + n / 0x1000 - 0xE0) * 0x40 + (0x80 + n / 0x40 % 0x40 - 0x80)) * 0x40 +
      (0x80 + n % 0x40 - 0x80) = n := by omega
  rw [decodeUtf8.eq_def]
  simp only [hlead, hfirst, hsecond, hvalue, Option.bind_eq_bind, Option.bind_some]
  rw [if_neg (by omega), if_neg (by omega), if_pos (by omega)]
  cases decodeUtf8 bs <;> rfl

theorem decodeUtf8_four {n : Nat} (hlo : 0x10000 ≤ n) (hhi : n < 0x110000) (bs : Bytes) :
    decodeUtf8 (UInt8.ofNat (0xF0 + n / 0x40000) :: UInt8.ofNat (0x80 + n / 0x1000 % 0x40) ::
        UInt8.ofNat (0x80 + n / 0x40 % 0x40) :: UInt8.ofNat (0x80 + n % 0x40) :: bs) =
      (decodeUtf8 bs).map (Char.ofNat n :: ·) := by
  have hlead := toNat_ofNat_byte (show 0xF0 + n / 0x40000 < 256 by omega)
  have hfirst : continuation? (if 0xF0 + n / 0x40000 = 0xF0 then 0x90 else 0x80)
      (if 0xF0 + n / 0x40000 = 0xF4 then 0x8F else 0xBF)
      (UInt8.ofNat (0x80 + n / 0x1000 % 0x40)) = some (0x80 + n / 0x1000 % 0x40 - 0x80) := by
    apply continuation?_ofNat
    · split <;> omega
    · split <;> omega
    · omega
  have hsecond := continuation?_ofNat (show 0x80 ≤ 0x80 + n / 0x40 % 0x40 by omega)
    (show 0x80 + n / 0x40 % 0x40 ≤ 0xBF by omega) (by omega)
  have hthird := continuation?_ofNat (show 0x80 ≤ 0x80 + n % 0x40 by omega)
    (show 0x80 + n % 0x40 ≤ 0xBF by omega) (by omega)
  have hvalue : (((0xF0 + n / 0x40000 - 0xF0) * 0x40 + (0x80 + n / 0x1000 % 0x40 - 0x80)) * 0x40 +
      (0x80 + n / 0x40 % 0x40 - 0x80)) * 0x40 + (0x80 + n % 0x40 - 0x80) = n := by omega
  rw [decodeUtf8.eq_def]
  simp only [hlead, hfirst, hsecond, hthird, hvalue, Option.bind_eq_bind, Option.bind_some]
  rw [if_neg (by omega), if_neg (by omega), if_neg (by omega), if_pos (by omega)]
  cases decodeUtf8 bs <;> rfl

/-- The bytes of a character are read as that character. -/
theorem decodeUtf8_encodeChar_append (c : Char) (bs : Bytes) :
    decodeUtf8 (encodeChar c ++ bs) = (decodeUtf8 bs).map (c :: ·) := by
  -- Characters leave the surrogates out, which the reader refuses.
  have hrange : c.toNat < 0xD800 ∨ (0xDFFF < c.toNat ∧ c.toNat < 0x110000) := c.valid
  have hchar : Char.ofNat c.toNat = c := Char.ofNat_toNat c
  unfold encodeChar
  dsimp only
  split
  next h1 =>
    rw [List.singleton_append, decodeUtf8.eq_def]
    simp [toNat_ofNat_byte (show c.toNat < 256 by omega), h1, hchar]
  next h1 =>
    split
    next h2 =>
      have htwo := decodeUtf8_two (show 0x80 ≤ c.toNat by omega) h2 bs
      rwa [hchar] at htwo
    next h2 =>
      split
      next h3 =>
        have hthree := decodeUtf8_three (show 0x800 ≤ c.toNat by omega) h3 (by omega) bs
        rwa [hchar] at hthree
      next h3 =>
        have hfour := decodeUtf8_four (show 0x10000 ≤ c.toNat by omega) (by omega) bs
        rwa [hchar] at hfour

theorem decodeUtf8_encodeUtf8 (t : Text) : decodeUtf8 (encodeUtf8 t) = some t := by
  induction t with
  | nil => rw [encodeUtf8, List.flatMap_nil, decodeUtf8]
  | cons c t ih =>
      rw [encodeUtf8, List.flatMap_cons, decodeUtf8_encodeChar_append, ← encodeUtf8, ih]
      rfl

theorem decodeNarrow_encodeNarrow {bound : Nat} (hbound : bound ≤ 256) {t : Text} {bs : Bytes}
    (h : encodeNarrow bound t = some bs) : decodeNarrow bound bs = some t := by
  induction t generalizing bs with
  | nil =>
      obtain rfl : bs = [] := by simpa [encodeNarrow] using h.symm
      rfl
  | cons c t ih =>
      rw [encodeNarrow, List.mapM_cons] at h
      by_cases hc : c.toNat < bound
      · rw [if_pos hc] at h
        cases hrest : encodeNarrow bound t with
        | none =>
            rw [encodeNarrow] at hrest
            simp [hrest] at h
        | some rest =>
            rw [encodeNarrow] at hrest
            simp only [hrest, Option.pure_def, Option.bind_eq_bind, Option.bind_some,
              Option.some.injEq] at h
            obtain rfl := h
            have hbyte := toNat_ofNat_byte (show c.toNat < 256 by omega)
            have hread := ih hrest
            rw [decodeNarrow] at hread
            rw [decodeNarrow, List.mapM_cons, hread]
            simp [hbyte, hc, Char.ofNat_toNat]
      · simp [hc] at h

/-- Bytes that were written as a text are read as this text. -/
theorem decode_encode {e : Encoding} {t : Text} {bs : Bytes} (h : e.encode t = some bs) :
    e.decode bs = some t := by
  cases e with
  | utf8 =>
      obtain rfl := Option.some.inj h
      exact decodeUtf8_encodeUtf8 t
  | utf8Marked =>
      obtain rfl := Option.some.inj h
      exact decodeUtf8_encodeUtf8 t
  | latin1 => exact decodeNarrow_encodeNarrow (by decide) h
  | ascii => exact decodeNarrow_encodeNarrow (by decide) h

end Encoding

/-- A text without a carriage return has its line endings folded already. -/
theorem foldNewlines_of_notMem {t : Text} (h : '\r' ∉ t) : foldNewlines t = t := by
  induction t with
  | nil => rfl
  | cons c t ih =>
      rw [List.mem_cons, not_or] at h
      rw [foldNewlines, ih h.2]
      · rintro u rfl
        exact absurd rfl h.1
      · rintro rfl
        exact absurd rfl h.1

theorem cr_notMem_foldNewlines (t : Text) : '\r' ∉ foldNewlines t := by
  fun_induction foldNewlines t with
  | case1 => simp
  | case2 t ih => simpa using ih
  | case3 t _ ih => simpa using ih
  | case4 c t _ hc ih =>
      rw [List.mem_cons, not_or]
      exact ⟨fun heq => hc heq.symm, ih⟩

end DocRefs
