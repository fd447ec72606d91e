import EmbeddedLisp.Proofs.Reader.Word

/-! Text that goes on. What is added behind a text leaves its tokens as they are, but for an atom at
the end, which may go on as well. Behind the end of a line nothing of the text goes on, neither an
atom nor a comment, so that the tokens of both parts are all there. -/
namespace EmbeddedLisp.Token

/-- The tokens of a longer text in place of those of a shorter one. -/
inductive Prolongs : List Token → List Token → Prop where
  | nil (longer : List Token) : Prolongs [] longer
  | atom (text text' : String) (rest : List Token) : Prolongs [.atom text] (.atom text' :: rest)
  | cons (t : Token) {tokens longer : List Token} (hRest : Prolongs tokens longer) :
      Prolongs (t :: tokens) (t :: longer)

/-- Up to each token of the shorter text, the longer one has the same tokens. That token itself is
there too, unless it is an atom that goes on. -/
theorem Prolongs.exists_eq_append {before after longer : List Token} {t : Token}
    (hProlongs : Prolongs (before ++ t :: after) longer) :
    ∃ t' after', longer = before ++ t' :: after' ∧ (t' = t ∨ ∃ text, t = .atom text) := by
  induction before generalizing longer with
  | nil =>
    cases hProlongs with
    | atom text text' rest => exact ⟨.atom text', rest, rfl, .inr ⟨text, rfl⟩⟩
    | @cons _ _ longer _ => exact ⟨t, longer, rfl, .inl rfl⟩
  | cons first before ih =>
    rw [List.cons_append] at hProlongs
    generalize hTokens : before ++ t :: after = tokens at hProlongs
    cases hProlongs with
    | atom => simp at hTokens
    | cons _ hRest =>
      obtain ⟨t', after', rfl, hToken⟩ := ih (hTokens ▸ hRest)
      exact ⟨t', after', rfl, hToken⟩

variable {comments : Bool}

theorem prolongs_finish (reversed : List Char) {tokens longer : List Token}
    (hProlongs : Prolongs tokens longer) :
    Prolongs (finish reversed tokens) (finish reversed longer) := by
  unfold finish
  split
  · exact hProlongs
  · exact .cons _ hProlongs

/-- An atom that has begun is the next token, whatever follows. -/
theorem exists_scanFrom_eq_atom (comments : Bool) {reversed : List Char} (hBegun : reversed ≠ [])
    (cs : List Char) :
    ∃ text rest, scanFrom comments (.word reversed) cs = .atom text :: rest := by
  induction cs generalizing reversed with
  | nil => exact ⟨_, [], if_neg hBegun⟩
  | cons c cs ih =>
    unfold scanFrom
    split
    case h_5 => exact ih (List.cons_ne_nil c reversed)
    all_goals exact ⟨_, _, if_neg hBegun⟩

/-- More text prolongs the tokens, by induction on the characters read. -/
theorem scanFrom_prolongs (position : Position) (cs more : List Char) :
    Prolongs (scanFrom comments position cs) (scanFrom comments position (cs ++ more)) := by
  fun_induction scanFrom comments position cs with
  | case1 reversed =>
    by_cases hBegun : reversed = []
    · rw [finish, if_pos hBegun]
      exact .nil _
    · obtain ⟨text, rest, hScan⟩ := exists_scanFrom_eq_atom comments hBegun more
      rw [finish, if_neg hBegun, List.nil_append, hScan]
      exact .atom _ _ _
  | case2 reversed c rest hRole ih =>
    simp only [List.cons_append, scanFrom, hRole]
    exact prolongs_finish reversed ih
  | case3 reversed c rest hRole ih | case4 reversed c rest hRole ih =>
    simp only [List.cons_append, scanFrom, hRole]
    exact prolongs_finish reversed (.cons _ ih)
  | case5 reversed c rest hRole ih =>
    simp only [List.cons_append, scanFrom, hRole]
    exact prolongs_finish reversed ih
  | case6 reversed c rest hRole ih =>
    simp only [List.cons_append, scanFrom, hRole]
    exact ih
  | case7 => exact .nil _
  | case8 c rest hEnd ih =>
    simp only [List.cons_append, scanFrom, hEnd, if_true]
    exact ih
  | case9 c rest hEnd ih =>
    simp only [List.cons_append, scanFrom, hEnd, if_false]
    exact ih

theorem scan_prolongs (comments : Bool) (text more : String) :
    Prolongs (scan comments text) (scan comments (text ++ more)) := by
  simp only [scan, String.toList_append]
  exact scanFrom_prolongs _ _ _

theorem finish_append (reversed : List Char) (tokens rest : List Token) :
    finish reversed (tokens ++ rest) = finish reversed tokens ++ rest := by
  unfold finish
  split <;> rfl

/-- The end of a line ends whatever a scan is in the middle of. -/
theorem scanFrom_lineEnd (position : Position) (cs more : List Char) :
    scanFrom comments position (cs ++ '\n' :: more) =
      scanFrom comments position cs ++ scanFrom comments (.word []) more := by
  have hBlank : roleOf comments '\n' = .blank := by cases comments <;> decide
  fun_induction scanFrom comments position cs with
  | case1 reversed =>
    rw [List.nil_append, scanFrom, hBlank, ← finish_append, List.nil_append]
  | case2 reversed c rest hRole ih | case5 reversed c rest hRole ih =>
    simp only [List.cons_append, scanFrom, hRole, ih, finish_append]
  | case3 reversed c rest hRole ih | case4 reversed c rest hRole ih =>
    simp only [List.cons_append, scanFrom, hRole, ih, ← finish_append]
  | case6 reversed c rest hRole ih =>
    simp only [List.cons_append, scanFrom, hRole, ih]
  | case7 =>
    simp only [List.nil_append, scanFrom, true_or, if_true]
  | case8 c rest hEnd ih =>
    simp only [List.cons_append, scanFrom, hEnd, if_true, ih]
  | case9 c rest hEnd ih =>
    simp only [List.cons_append, scanFrom, hEnd, if_false, ih]

/-- Texts on lines of their own are scanned apart: a comment ends with its line. -/
theorem scan_lineEnd (comments : Bool) (text more : String) :
    scan comments (text ++ ("\n" ++ more)) = scan comments text ++ scan comments more := by
  simp only [scan, String.toList_append]
  exact scanFrom_lineEnd _ _ _

end EmbeddedLisp.Token
