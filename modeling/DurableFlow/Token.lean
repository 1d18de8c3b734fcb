/-!
# Cancellation tokens

Tokens form a tree: a token is named by its own number and those of the tokens that it descends
from. Cancelling a token cancels all that descend from it: main statement, whatever is within a
cancelled token is cancelled (`isCancelled_of_isWithin`).
-/

namespace DurableFlow

/-- A token: its own number, then those of the tokens that it descends from. -/
structure Token where
  path : List Nat
  deriving DecidableEq, Repr

namespace Token

/-- A token that descends from none. -/
def root (number : Nat) : Token := ⟨[number]⟩

/-- A token that descends directly from another. -/
def child (t : Token) (number : Nat) : Token := ⟨number :: t.path⟩

/-- Whether a token is the other one or descends from it. -/
def isWithin (t s : Token) : Bool := s.path.isSuffixOf t.path

/-- Whether a token is cancelled once those of a list have been. -/
def isCancelled (cancelled : List Token) (t : Token) : Bool := cancelled.any t.isWithin

@[simp] theorem isWithin_self (t : Token) : t.isWithin t = true := by
  simp [isWithin]

theorem isWithin_trans {r s t : Token} (h : r.isWithin s) (h' : s.isWithin t) :
    r.isWithin t := by
  simp only [isWithin, List.isSuffixOf_iff_suffix] at *
  exact h'.trans h

theorem isWithin_child (t : Token) (number : Nat) : (t.child number).isWithin t = true := by
  simp only [isWithin, List.isSuffixOf_iff_suffix, child]
  exact List.suffix_cons number t.path

/-- A token is within another one if it is that one, or if the token that it descends from is within
it. -/
theorem isWithin_child_iff {σ τ : Token} {n : Nat} :
    (σ.child n).isWithin τ = true ↔ σ.child n = τ ∨ σ.isWithin τ = true := by
  simp only [isWithin, List.isSuffixOf_iff_suffix]
  rw [child, List.suffix_cons_iff]
  refine or_congr_left ⟨fun h => ?_, fun h => h ▸ rfl⟩
  cases τ
  exact congrArg Token.mk h.symm

theorem isCancelled_of_isWithin {cancelled : List Token} {t s : Token} (h : t.isWithin s)
    (hs : s.isCancelled cancelled) : t.isCancelled cancelled := by
  obtain ⟨r, hr, hsr⟩ := List.any_eq_true.1 hs
  exact List.any_eq_true.2 ⟨r, hr, isWithin_trans h hsr⟩

theorem isCancelled_child {cancelled : List Token} {t : Token} (number : Nat)
    (h : t.isCancelled cancelled) : (t.child number).isCancelled cancelled :=
  isCancelled_of_isWithin (isWithin_child t number) h

end Token

end DurableFlow
