/-! Texts inside of texts. -/
namespace EmbeddedLisp

/-- Whether a run of characters stands somewhere inside another, without gaps. -/
def occursIn (part : List Char) : List Char → Bool
  | [] => part.isEmpty
  | c :: rest => part.isPrefixOf (c :: rest) || occursIn part rest

end EmbeddedLisp
