import Mathlib.Data.List.Flatten
import Mathlib.Data.List.Infix

/-! Codes of which none is the beginning of another one. -/
namespace QtBase.Lib.PrefixCode

variable {α β : Type} {code : α → List β}

def PrefixFree (code : α → List β) : Prop := ∀ a b, code a <+: code b → a = b

theorem PrefixFree.eq_of_prefix (h : PrefixFree code) {a b : α} {l : List β}
    (ha : code a <+: l) (hb : code b <+: l) : a = b := by
  rcases List.prefix_or_prefix_of_prefix ha hb with hab | hba
  · exact h a b hab
  · exact (h b a hba).symm

/-- The codes of a text, one behind the other. -/
def encode (code : α → List β) (s : List α) : List β := s.flatMap code

theorem encode_cons (a : α) (s : List α) : encode code (a :: s) = code a ++ encode code s :=
  List.flatMap_cons

end QtBase.Lib.PrefixCode
