import EmbeddedLisp.Proofs.Reader.Word

/-! How tokens lie in a text. They stand in it one behind the other, with nothing but blanks around
them, and two runs are never next to each other. A text without comments can be taken apart in one
such way only, which is that of a scan. -/
namespace EmbeddedLisp.Token

section

variable {comments : Bool} {t : Token} {cs rest : List Char}

theorem roleOf_blank_iff {a : Char} : roleOf comments a = .blank ↔ isBlank a := by
  have hOpening : isBlank '(' = false := by decide
  have hClosing : isBlank ')' = false := by decide
  unfold roleOf
  split_ifs <;> simp_all

theorem roleOf_comment_iff {a : Char} : roleOf comments a = .comment ↔ comments ∧ a = ';' := by
  by_cases hHere : a = ';'
  · subst hHere
    cases comments <;> decide
  · unfold roleOf
    split_ifs <;> simp_all

theorem roleOf_ordinary_iff {a : Char} : roleOf comments a = .ordinary ↔
    isBlank a = false ∧ a ≠ '(' ∧ a ≠ ')' ∧ (comments = false ∨ a ≠ ';') := by
  unfold roleOf
  cases comments <;> split_ifs <;> simp_all

/-- Blanks between words leave no token. -/
theorem scanFrom_blanks {gap : List Char} (hGap : ∀ a ∈ gap, isBlank a) (rest : List Char) :
    scanFrom comments (.word []) (gap ++ rest) = scanFrom comments (.word []) rest := by
  induction gap with
  | nil => rfl
  | cons a gap ih =>
    obtain ⟨hFirst, hGap⟩ := List.forall_mem_cons.1 hGap
    rw [List.cons_append, scanFrom, roleOf_blank_iff.2 hFirst]
    exact ih hGap

/-- Blanks at the front of a text, as many as there are. -/
theorem exists_gap (cs : List Char) :
    ∃ gap, cs = gap ++ cs.dropWhile isBlank ∧ (∀ a ∈ gap, isBlank a) ∧
    ∀ a ∈ (cs.dropWhile isBlank).head?, ¬isBlank a := by
  refine ⟨cs.takeWhile isBlank, List.takeWhile_append_dropWhile.symm,
    List.all_eq_true.1 List.all_takeWhile, fun a hHead => ?_⟩
  have hStops := List.head?_dropWhile_not isBlank cs
  rw [Option.mem_def.1 hHead] at hStops
  simpa using hStops

theorem IsWord.toList_ne_nil {text : String} (hWord : IsWord comments text) : text.toList ≠ [] := by
  intro hNone
  exact hWord.1 (by rw [← text.ofList_toList, hNone])

/-- A token at the front of a text, up to where it ends. -/
inductive Front (comments : Bool) : Token → (cs rest : List Char) → Prop where
  | opening (rest : List Char) : Front comments .opening ('(' :: rest) rest
  | closing (rest : List Char) : Front comments .closing (')' :: rest) rest
  | atom {text : String} {rest : List Char} (hWord : IsWord comments text)
      (hBreaks : Breaks comments rest) :
      Front comments (.atom text) (text.toList ++ rest) rest

namespace Front

theorem eq_append (hFront : Front comments t cs rest) : cs = t.text.toList ++ rest := by
  cases hFront <;> rfl

theorem scan (hFront : Front comments t cs rest) :
    scanFrom comments (.word []) cs = t :: scanFrom comments (.word []) rest := by
  cases hFront with
  | opening | closing => rfl
  | atom hWord hBreaks => exact scanFrom_isWord hWord hBreaks

/-- A token takes at least one character, which is what recursion on the rest needs. -/
theorem shorter (hFront : Front comments t cs rest) : rest.length < cs.length := by
  cases hFront with
  | opening | closing => exact Nat.lt_succ_self _
  | atom hWord =>
    rw [List.length_append]
    exact Nat.lt_add_of_pos_left (List.length_pos_iff.2 hWord.toList_ne_nil)

end Front

/-- An atom goes on as long as its characters do. -/
theorem front_ordinary {a : Char} (hRole : roleOf comments a = .ordinary) (cs : List Char) :
    ∃ t rest, Front comments t (a :: cs) rest := by
  let ordinary (b : Char) : Bool := roleOf comments b = .ordinary
  have hWord : IsWord comments (String.ofList ((a :: cs).takeWhile ordinary)) := by
    refine ⟨?_, fun b hMem => ?_⟩
    · simp [ordinary, hRole]
    · rw [String.toList_ofList] at hMem
      simpa [ordinary] using List.all_eq_true.1 List.all_takeWhile b hMem
  have hBreaks : Breaks comments ((a :: cs).dropWhile ordinary) := by
    intro b hHead hOrdinary
    have hStops := List.head?_dropWhile_not ordinary (a :: cs)
    rw [Option.mem_def.1 hHead] at hStops
    simp [ordinary, hOrdinary] at hStops
  have hFront := Front.atom hWord hBreaks
  rw [String.toList_ofList, List.takeWhile_append_dropWhile] at hFront
  exact ⟨_, _, hFront⟩

/-- Where there is neither a blank nor a comment, there is a token, or it is the end. -/
theorem exists_front
    (hStart : ∀ a ∈ cs.head?, roleOf comments a ≠ .blank ∧ roleOf comments a ≠ .comment) :
    cs = [] ∨ ∃ t rest, Front comments t cs rest := by
  cases cs with
  | nil => exact .inl rfl
  | cons a cs =>
    obtain ⟨hBlank, hComment⟩ := hStart a rfl
    refine .inr ?_
    by_cases hOpening : a = '('
    · subst hOpening
      exact ⟨_, _, .opening cs⟩
    by_cases hClosing : a = ')'
    · subst hClosing
      exact ⟨_, _, .closing cs⟩
    refine front_ordinary ?_ cs
    unfold roleOf at hBlank hComment ⊢
    rw [if_neg hOpening, if_neg hClosing] at hBlank hComment ⊢
    split_ifs at hBlank hComment ⊢
    · exact absurd rfl hBlank
    · exact absurd rfl hComment
    · rfl

end

/-- A run of characters that are neither blank nor parentheses. -/
def IsRun (t : String) : Prop := t ≠ "" ∧ ∀ a ∈ t.toList, isBlank a = false ∧ a ≠ '(' ∧ a ≠ ')'

/-- A piece of a text that can be a token. -/
def IsPiece (t : String) : Prop := t = "(" ∨ t = ")" ∨ IsRun t

/-- Whether a text consists of some pieces, in their order, and of blanks around them. There is a
blank between two runs that follow each other. -/
inductive Layout : List String → List Char → Prop where
  | blanks {gap : List Char} (hGap : ∀ a ∈ gap, isBlank a) : Layout [] gap
  | piece {gap rest : List Char} {t : String} {later : List String} (hGap : ∀ a ∈ gap, isBlank a)
      (hPiece : IsPiece t) (hApart : IsRun t → ∀ next ∈ later.head?, IsRun next →
      ∃ a ∈ rest.head?, isBlank a)
      (hRest : Layout later rest) : Layout (t :: later) (gap ++ (t.toList ++ rest))

/-- Runs are the words of a reader without comments. -/
theorem isRun_iff {t : String} : IsRun t ↔ IsWord false t := isWord_false_iff.symm

theorem Front.isPiece {t : Token} {cs rest : List Char} (hFront : Front false t cs rest) :
    IsPiece t.text := by
  cases hFront with
  | opening => exact .inl rfl
  | closing => exact .inr (.inl rfl)
  | atom hWord => exact .inr (.inr (isRun_iff.2 hWord))

/-- A run begins with a character that goes on with it, and it goes on as long as it can. -/
theorem Front.of_isRun {t : Token} {cs rest : List Char} (hFront : Front false t cs rest)
    (hRun : IsRun t.text) :
    (∀ a ∈ cs.head?, roleOf false a = .ordinary) ∧ Breaks false rest := by
  cases hFront with
  | opening => exact absurd rfl (hRun.2 '(' List.mem_cons_self).2.1
  | closing => exact absurd rfl (hRun.2 ')' List.mem_cons_self).2.2
  | @atom text _ hWord hBreaks =>
    refine ⟨fun a hHead => ?_, hBreaks⟩
    obtain ⟨b, later, hText⟩ := List.exists_cons_of_ne_nil hWord.toList_ne_nil
    rw [hText] at hHead
    cases hHead
    exact hWord.2 a (hText ▸ List.mem_cons_self)

namespace Layout

variable {ts : List String} {cs : List Char}

theorem cons_blank (h : Layout ts cs) {a : Char} (hBlank : isBlank a) : Layout ts (a :: cs) := by
  cases h with
  | blanks hGap => exact .blanks (List.forall_mem_cons.2 ⟨hBlank, hGap⟩)
  | piece hGap hPiece hApart hRest =>
    rw [← List.cons_append]
    exact .piece (List.forall_mem_cons.2 ⟨hBlank, hGap⟩) hPiece hApart hRest

/-- A run ends before what is taken apart without it. -/
theorem breaks (h : Layout ts cs)
    (hApart : ∀ next ∈ ts.head?, IsRun next → ∃ a ∈ cs.head?, isBlank a) : Breaks false cs := by
  intro a hHead hOrdinary
  have hNotBlank : ¬isBlank a := fun hBlank => by
    rw [roleOf_blank_iff.2 hBlank] at hOrdinary
    cases hOrdinary
  cases h with
  | blanks hGap => exact hNotBlank (hGap a (List.mem_of_mem_head? hHead))
  | @piece gap rest t later hGap hPiece _ hRest =>
    cases gap with
    | cons b gap =>
      cases hHead
      exact hNotBlank (hGap a List.mem_cons_self)
    | nil =>
      rw [List.nil_append] at hHead hApart
      rcases hPiece with rfl | rfl | hRun
      · cases hHead
        exact absurd hOrdinary (by decide)
      · cases hHead
        exact absurd hOrdinary (by decide)
      · obtain ⟨b, hFirst, hBlank⟩ := hApart t rfl hRun
        cases Option.mem_unique hFirst hHead
        exact hNotBlank hBlank

theorem eq_scan (h : Layout ts cs) : ts = (scanFrom false (.word []) cs).map text := by
  induction h with
  | @blanks gap hGap =>
    have hScan : scanFrom false (.word []) (gap ++ []) = scanFrom false (.word []) [] :=
      scanFrom_blanks hGap []
    rw [List.append_nil] at hScan
    rw [hScan]
    rfl
  | @piece gap rest t later hGap hPiece hApart hRest ih =>
    rw [scanFrom_blanks hGap]
    rcases hPiece with rfl | rfl | hRun
    · exact congrArg _ ih
    · exact congrArg _ ih
    · rw [scanFrom_isWord (isRun_iff.1 hRun) (hRest.breaks (hApart hRun)), List.map_cons, ← ih]
      rfl

/-- Nothing is lost but blanks. -/
theorem flatMap_toList (h : Layout ts cs) : ts.flatMap String.toList = cs.filter (!isBlank ·) := by
  induction h with
  | blanks hGap =>
    refine (List.filter_eq_nil_iff.2 fun a hMem => ?_).symm
    simp [hGap a hMem]
  | @piece gap rest t later hGap hPiece hApart hRest ih =>
    have hGapLost : gap.filter (!isBlank ·) = [] :=
      List.filter_eq_nil_iff.2 fun a hMem => by simp [hGap a hMem]
    have hKept : t.toList.filter (!isBlank ·) = t.toList := by
      refine List.filter_eq_self.2 fun a hMem => ?_
      rcases hPiece with rfl | rfl | hRun
      · cases List.mem_singleton.1 hMem
        decide
      · cases List.mem_singleton.1 hMem
        decide
      · rw [(hRun.2 a hMem).1]
        rfl
    rw [List.flatMap_cons, List.filter_append, List.filter_append, hGapLost, hKept,
      List.nil_append, ih]

end Layout

/-- Behind a run that goes on as long as it can, the next one has to wait for a blank. -/
theorem isBlank_of_breaks {cs : List Char} (hBreaks : Breaks false cs) {next : String}
    (hNext : next ∈ ((scanFrom false (.word []) cs).map text).head?) (hRun : IsRun next) :
    ∃ a ∈ cs.head?, isBlank a := by
  cases cs with
  | nil => cases hNext
  | cons a cs =>
    refine ⟨a, rfl, Decidable.byContradiction fun hNotBlank => ?_⟩
    have hStart : ∀ b ∈ (a :: cs).head?, roleOf false b ≠ .blank ∧ roleOf false b ≠ .comment := by
      rintro b ⟨⟩
      exact ⟨mt roleOf_blank_iff.1 hNotBlank, mt roleOf_comment_iff.1 nofun⟩
    rcases exists_front hStart with hNone | ⟨t, rest, hFront⟩
    · cases hNone
    · rw [hFront.scan] at hNext
      cases hNext
      exact hBreaks a rfl ((hFront.of_isRun hRun).1 a rfl)

/-- A scan takes a text apart. -/
theorem layout_scan (cs : List Char) : Layout ((scanFrom false (.word []) cs).map text) cs := by
  induction hLength : cs.length using Nat.strongRecOn generalizing cs with
  | _ length ih =>
    subst hLength
    obtain ⟨gap, hSplit, hGap, hEnd⟩ := exists_gap cs
    generalize cs.dropWhile isBlank = behind at hSplit hEnd
    subst hSplit
    have hStart : ∀ a ∈ behind.head?, roleOf false a ≠ .blank ∧ roleOf false a ≠ .comment :=
      fun a hHead => ⟨mt roleOf_blank_iff.1 (hEnd a hHead), mt roleOf_comment_iff.1 nofun⟩
    rw [scanFrom_blanks hGap]
    rcases exists_front hStart with rfl | ⟨t, rest, hFront⟩
    · rw [List.append_nil]
      exact .blanks hGap
    · have hShorter : rest.length < (gap ++ behind).length := by
        rw [List.length_append]
        exact Nat.lt_of_lt_of_le hFront.shorter (Nat.le_add_left _ _)
      rw [hFront.scan, List.map_cons, hFront.eq_append]
      exact .piece hGap hFront.isPiece
        (fun hRun _ hNext hNextRun => isBlank_of_breaks (hFront.of_isRun hRun).2 hNext hNextRun)
        (ih rest.length hShorter rest rfl)

/-- There is one way to take a text apart. -/
theorem layout_iff {ts : List String} {cs : List Char} :
    Layout ts cs ↔ ts = (scanFrom false (.word []) cs).map text := by
  constructor
  · exact Layout.eq_scan
  · rintro rfl
    exact layout_scan cs

theorem Layout.isPiece {ts : List String} {cs : List Char} (h : Layout ts cs) :
    ∀ t ∈ ts, IsPiece t := by
  induction h with
  | blanks => exact nofun
  | piece _ hPiece _ _ ih => exact List.forall_mem_cons.2 ⟨hPiece, ih⟩

/-- Pieces with single spaces between them lie apart. -/
theorem layout_intercalate {ts : List String} (hPieces : ∀ t ∈ ts, IsPiece t) :
    Layout ts (" ".intercalate ts).toList := by
  induction ts with
  | nil => exact .blanks nofun
  | cons t later ih =>
    obtain ⟨hFirst, hLater⟩ := List.forall_mem_cons.1 hPieces
    have hNoGap : ∀ a ∈ ([] : List Char), isBlank a := nofun
    cases later with
    | nil =>
      rw [String.intercalate_singleton]
      have hLast : Layout [t] ([] ++ (t.toList ++ [])) :=
        .piece hNoGap hFirst (fun _ _ hNext => nomatch hNext) (.blanks hNoGap)
      rwa [List.append_nil, List.nil_append] at hLast
    | cons next later =>
      have hText : (" ".intercalate (t :: next :: later)).toList =
          [] ++ (t.toList ++ ' ' :: (" ".intercalate (next :: later)).toList) := by
        simp
      rw [hText]
      exact .piece hNoGap hFirst (fun _ _ _ _ => ⟨' ', rfl, by decide⟩)
        ((ih hLater).cons_blank (by decide))

end EmbeddedLisp.Token
