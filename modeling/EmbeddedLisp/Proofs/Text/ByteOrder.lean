import Mathlib.Data.String.Basic

/-! The order of texts by their bytes. In UTF-8 a character is one byte that leads and up to three
that go on with six bits each, and a character with more bytes has a greater leading one. So the
bytes of two texts compare as their characters do. -/
namespace EmbeddedLisp.Utf8

/-- The bytes that a text is stored as. -/
def bytes (text : String) : List UInt8 := text.toUTF8.data.toList

/-- A text is encoded character by character. -/
theorem bytes_eq (text : String) : bytes text = text.toList.flatMap String.utf8EncodeChar := by
  conv_lhs => rw [← String.ofList_toList (s := text)]
  rw [bytes, String.toUTF8_eq_toByteArray, String.toByteArray_ofList, List.utf8Encode]
  exact List.toList_data_toByteArray

/-- The last bytes of a code point, each with six of its bits. -/
def continuation (n : Nat) : (count : Nat) → List UInt8
  | 0 => []
  | count + 1 => UInt8.ofNat (n / 64 ^ count % 64 + 0x80) :: continuation n count

/-- How many bytes go on with a code point, and the byte that leads them. -/
def Leads (n count lead : Nat) : Prop :=
  count = 0 ∧ n ≤ 0x7f ∧ lead = n ∨
    count = 1 ∧ 0x7f < n ∧ n ≤ 0x7ff ∧ lead = n / 64 + 0xc0 ∨
    count = 2 ∧ 0x7ff < n ∧ n ≤ 0xffff ∧ lead = n / 64 ^ 2 + 0xe0 ∨
    count = 3 ∧ 0xffff < n ∧ n ≤ 0x10ffff ∧ lead = n / 64 ^ 3 + 0xf0

theorem exists_leads (c : Char) : ∃ count lead, Leads c.toNat count lead ∧
    String.utf8EncodeChar c = UInt8.ofNat lead :: continuation c.toNat count := by
  have hScalar : c.toNat ≤ 0x10ffff := by
    have hValid := c.valid
    simp only [UInt32.isValidChar, Nat.isValidChar] at hValid
    show c.val.toNat ≤ _
    omega
  have hValue : c.val.toNat = c.toNat := rfl
  simp only [String.utf8EncodeChar, hValue]
  generalize c.toNat = n at hScalar
  split
  · rename_i hOne
    exact ⟨0, n, .inl ⟨rfl, hOne, rfl⟩, rfl⟩
  split
  · rename_i hMore hTwo
    refine ⟨1, n / 64 + 0xc0, .inr (.inl ⟨rfl, by omega, hTwo, rfl⟩), ?_⟩
    rw [Nat.mod_eq_of_lt (by omega : n / 64 < 0x20)]
    simp [continuation]
  split
  · rename_i hMore hThree
    refine ⟨2, n / 64 ^ 2 + 0xe0, .inr (.inr (.inl ⟨rfl, by omega, hThree, rfl⟩)), ?_⟩
    rw [Nat.mod_eq_of_lt (by omega : n / 4096 < 0x10)]
    simp [continuation]
  · rename_i hMore
    refine ⟨3, n / 64 ^ 3 + 0xf0, .inr (.inr (.inr ⟨rfl, by omega, hScalar, rfl⟩)), ?_⟩
    rw [Nat.mod_eq_of_lt (by omega : n / 262144 < 0x08)]
    simp [continuation]

/-- A smaller code point has a smaller leading byte, or the same one before as many bytes. -/
theorem Leads.lt {m n count count' lead lead' : Nat} (hFirst : Leads m count lead)
    (hSecond : Leads n count' lead') (hLess : m < n) :
    lead < lead' ∧ lead' < 256 ∨ lead = lead' ∧ count = count' ∧
      m / 64 ^ count = n / 64 ^ count' := by
  unfold Leads at hFirst hSecond
  rcases hFirst with ⟨rfl, hFirst⟩ | ⟨rfl, hFirst⟩ | ⟨rfl, hFirst⟩ | ⟨rfl, hFirst⟩ <;>
    rcases hSecond with ⟨rfl, hSecond⟩ | ⟨rfl, hSecond⟩ | ⟨rfl, hSecond⟩ | ⟨rfl, hSecond⟩ <;> omega

theorem cons_lt_of_lt {k l : Nat} (hLess : k < l) (hByte : l < 256) (u v : List UInt8) :
    UInt8.ofNat k :: u < UInt8.ofNat l :: v := by
  refine List.cons_lt_cons_iff.2 (.inl ?_)
  rw [UInt8.lt_iff_toNat_lt, UInt8.toNat_ofNat', UInt8.toNat_ofNat']
  omega

theorem cons_lt_of_eq {k l : Nat} (hSame : k = l) {u v : List UInt8} (hLess : u < v) :
    UInt8.ofNat k :: u < UInt8.ofNat l :: v :=
  List.cons_lt_cons_iff.2 (.inr ⟨congrArg _ hSame, hLess⟩)

/-- Code points with the same bits in front compare as the bits that go on. -/
theorem continuation_lt {m n count : Nat} (hFront : m / 64 ^ count = n / 64 ^ count) (hLess : m < n)
    (u v : List UInt8) : continuation m count ++ u < continuation n count ++ v := by
  induction count with
  | zero =>
    rw [Nat.pow_zero, Nat.div_one, Nat.div_one] at hFront
    omega
  | succ count ih =>
    rw [Nat.pow_succ, ← Nat.div_div_eq_div_mul, ← Nat.div_div_eq_div_mul] at hFront
    rcases Nat.lt_or_eq_of_le (Nat.div_le_div_right (c := 64 ^ count) (Nat.le_of_lt hLess)) with
      hBits | hBits
    · exact cons_lt_of_lt (by omega) (by omega) _ _
    · exact cons_lt_of_eq (by rw [hBits]) (ih hBits)

/-- The bytes of characters are in the order of their code points, whatever follows. -/
theorem utf8EncodeChar_lt {c d : Char} (hLess : c < d) (u v : List UInt8) :
    String.utf8EncodeChar c ++ u < String.utf8EncodeChar d ++ v := by
  have hValues : c.toNat < d.toNat := hLess
  obtain ⟨count, lead, hLeads, hBytes⟩ := exists_leads c
  obtain ⟨count', lead', hLeads', hBytes'⟩ := exists_leads d
  rw [hBytes, hBytes']
  rcases hLeads.lt hLeads' hValues with ⟨hLead, hByte⟩ | ⟨hLead, rfl, hFront⟩
  · exact cons_lt_of_lt hLead hByte _ _
  · exact cons_lt_of_eq hLead (continuation_lt hFront hValues u v)

/-- So the bytes of texts are, by induction on the characters that they have in common. -/
theorem bytes_lt {s t : String} (hLess : s < t) : bytes s < bytes t := by
  rw [bytes_eq, bytes_eq]
  have hCharacters : s.toList < t.toList := hLess
  generalize s.toList = cs at hCharacters ⊢
  generalize t.toList = ds at hCharacters ⊢
  induction hCharacters with
  | nil =>
    rename_i d ds
    obtain ⟨_, _, -, hBytes⟩ := exists_leads d
    rw [List.flatMap_cons, hBytes]
    exact List.nil_lt_cons _ _
  | cons _ ih => exact List.append_left_lt ih
  | rel hLess => exact utf8EncodeChar_lt hLess _ _

/-- Texts are in the order of their bytes as they are in the order of their characters. -/
theorem bytes_lt_iff {s t : String} : bytes s < bytes t ↔ s < t := by
  refine ⟨fun hBytes => ?_, bytes_lt⟩
  by_contra hNot
  rcases Decidable.em (s = t) with rfl | hDifferent
  · exact List.lt_irrefl _ hBytes
  · have hGreater : t < s :=
      String.not_le.1 fun hLe => hDifferent (String.le_antisymm hLe (String.not_lt.1 hNot))
    exact List.lt_asymm hBytes (bytes_lt hGreater)

/-- The code points of a text. -/
def codePoints (text : String) : List Nat := text.toList.map Char.toNat

theorem codePoints_lt_iff {s t : String} : codePoints s < codePoints t ↔ s < t := by
  have hMono {s t : String} (hLess : s < t) : codePoints s < codePoints t :=
    List.map_lt (fun _ _ hChars => hChars) hLess
  refine ⟨fun hPoints => ?_, hMono⟩
  rcases lt_trichotomy s t with hLess | rfl | hGreater
  · exact hLess
  · exact absurd hPoints (List.lt_irrefl _)
  · exact absurd (hMono hGreater) (List.lt_asymm hPoints)

end EmbeddedLisp.Utf8
