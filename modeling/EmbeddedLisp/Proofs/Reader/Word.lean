import EmbeddedLisp.Reader.Token
import Mathlib.Tactic.SplitIfs

/-! Words: the texts that a scan takes for one atom. A word is found wherever what follows it ends
an atom, and all the atoms that are found are words. -/
namespace EmbeddedLisp

namespace Token

/-- A text that a scan takes for one atom: it is not empty, and each of its characters goes on with
it. -/
def IsWord (comments : Bool) (text : String) : Prop :=
  text ≠ "" ∧ ∀ c ∈ text.toList, roleOf comments c = .ordinary

instance (comments : Bool) (text : String) : Decidable (IsWord comments text) :=
  @instDecidableAnd _ _ _ (List.decidableBAll _ _)

/-- A rest of a text that ends the atom before it. -/
def Breaks (comments : Bool) (rest : List Char) : Prop :=
  ∀ c ∈ rest.head?, roleOf comments c ≠ .ordinary

theorem isWord_false_iff {text : String} :
    IsWord false text ↔
      text ≠ "" ∧ ∀ c ∈ text.toList, isBlank c = false ∧ c ≠ '(' ∧ c ≠ ')' := by
  have hRole (c : Char) : roleOf false c = .ordinary ↔ isBlank c = false ∧ c ≠ '(' ∧ c ≠ ')' := by
    unfold roleOf
    split_ifs <;> simp_all
  simp only [IsWord, hRole]

section

variable {comments : Bool}

/-- Ordinary characters are added to the word that has been begun. -/
theorem scanFrom_ordinary {word : List Char} (hWord : ∀ c ∈ word, roleOf comments c = .ordinary)
    (reversed rest : List Char) :
    scanFrom comments (.word reversed) (word ++ rest) =
      scanFrom comments (.word (word.reverse ++ reversed)) rest := by
  induction word generalizing reversed with
  | nil => rfl
  | cons c word ih =>
    have hFirst := hWord c List.mem_cons_self
    rw [List.cons_append, scanFrom, hFirst, List.reverse_cons, List.append_assoc,
      List.singleton_append]
    exact ih (fun c' hMem => hWord c' (List.mem_cons_of_mem c hMem)) (c :: reversed)

/-- A word ends where it breaks off, and what follows is scanned on its own. -/
theorem scanFrom_of_breaks {rest : List Char} (hBreaks : Breaks comments rest)
    (reversed : List Char) :
    scanFrom comments (.word reversed) rest =
      finish reversed (scanFrom comments (.word []) rest) := by
  cases rest with
  | nil => rfl
  | cons c rest =>
    have hRole := hBreaks c rfl
    simp only [scanFrom]
    cases hEnd : roleOf comments c with
    | ordinary => exact absurd hEnd hRole
    | _ => rfl

/-- A word before the end of an atom is an atom. -/
theorem scanFrom_isWord {text : String} (hWord : IsWord comments text) {rest : List Char}
    (hBreaks : Breaks comments rest) :
    scanFrom comments (.word []) (text.toList ++ rest) =
      .atom text :: scanFrom comments (.word []) rest := by
  rw [scanFrom_ordinary hWord.2, scanFrom_of_breaks hBreaks, List.append_nil]
  have hSome : text.toList.reverse ≠ [] := by simpa using hWord.1
  rw [finish, if_neg hSome, List.reverse_reverse, String.ofList_toList]

/-- The atom that a scan is in the middle of has only ordinary characters so far. -/
def Position.Ordinary (comments : Bool) : Position → Prop
  | .word reversed => ∀ c ∈ reversed, roleOf comments c = .ordinary
  | .comment => True

theorem ordinary_nil : Position.Ordinary comments (.word []) := by
  intro c hNone
  cases hNone

theorem isWord_or_mem_of_mem_finish {reversed : List Char} {rest : List Token} {text : String}
    (hOrdinary : Position.Ordinary comments (.word reversed))
    (hMem : .atom text ∈ finish reversed rest) :
    IsWord comments text ∨ .atom text ∈ rest := by
  unfold finish at hMem
  split at hMem
  · exact .inr hMem
  · rename_i hSome
    rcases List.mem_cons.1 hMem with hAtom | hRest
    · cases hAtom
      refine .inl ⟨fun hEmpty => hSome ?_, fun c hChar => hOrdinary c ?_⟩
      · simpa using congrArg String.toList hEmpty
      · simpa using hChar
    · exact .inr hRest

/-- Every atom of a scan is a word. -/
theorem isWord_of_mem_scanFrom {position : Position} {cs : List Char} {text : String}
    (hOrdinary : position.Ordinary comments) (hMem : .atom text ∈ scanFrom comments position cs) :
    IsWord comments text := by
  fun_induction scanFrom comments position cs with
  | case1 reversed => exact (isWord_or_mem_of_mem_finish hOrdinary hMem).resolve_right (by simp)
  | case2 reversed c rest hRole ih =>
    exact (isWord_or_mem_of_mem_finish hOrdinary hMem).elim id (ih ordinary_nil)
  | case3 reversed c rest hRole ih | case4 reversed c rest hRole ih =>
    refine (isWord_or_mem_of_mem_finish hOrdinary hMem).elim id fun hRest => ih ordinary_nil ?_
    exact (List.mem_cons.1 hRest).resolve_left (by simp)
  | case5 reversed c rest hRole ih =>
    exact (isWord_or_mem_of_mem_finish hOrdinary hMem).elim id (ih trivial)
  | case6 reversed c rest hRole ih => exact ih (List.forall_mem_cons.2 ⟨hRole, hOrdinary⟩) hMem
  | case7 => cases hMem
  | case8 c rest hEnd ih => exact ih ordinary_nil hMem
  | case9 c rest hEnd ih => exact ih trivial hMem

/-- Every atom that is scanned is a word. -/
theorem isWord_of_mem_scan {source text : String} (hMem : .atom text ∈ scan comments source) :
    IsWord comments text := isWord_of_mem_scanFrom ordinary_nil hMem

theorem roleOf_isDigit {c : Char} (hDigit : c.isDigit) : roleOf comments c = .ordinary := by
  have hRange : 48 ≤ c.toNat ∧ c.toNat ≤ 57 := by
    simpa [Char.isDigit, UInt32.le_iff_toNat_le] using hDigit
  have hBlank : isBlank c = false := by
    simp only [isBlank, blankRanges, List.any_cons, List.any_nil, Bool.or_false,
      Bool.or_eq_false_iff, Bool.and_eq_false_iff, decide_eq_false_iff_not]
    omega
  have hOther (other : Char) (hFar : other.toNat < 48 ∨ 57 < other.toNat) : c ≠ other := by
    rintro rfl
    omega
  simp [roleOf, hBlank, hOther '(' (by decide), hOther ')' (by decide), hOther ';' (by decide)]

end

end Token

end EmbeddedLisp
