import Reckon.Token

/-! # The depth of the value stack

    Whether a sequence can be evaluated shows without any values: an operand adds one value to the
    stack, and an operator replaces as many as it takes by one. The *net depth* is what a sequence
    adds altogether, whether or not values run short on the way; a sequence is *complete* if they
    never do and one value is left. -/

namespace Reckon.Postfix

/-- How many values a token takes. -/
def takes : Token → Nat
  | .operator op => op.arity
  | _ => 0

/-- How many values a sequence leaves, less those that it lacks. -/
def netDepth : List Token → Int
  | [] => 0
  | t :: rest => 1 - (takes t : Int) + netDepth rest

/-- The depth that a sequence leaves on a stack of the given depth, unless values run short. -/
def depthFrom? (depth : Nat) : List Token → Option Nat
  | [] => some depth
  | t :: rest => if depth < takes t then none else depthFrom? (depth - takes t + 1) rest

/-- Whether a sequence leaves exactly one value, and values never run short. -/
def isComplete (tokens : List Token) : Bool :=
  depthFrom? 0 tokens == some 1

/-! ### Sequences one after another -/

theorem netDepth_append (ts us : List Token) :
    netDepth (ts ++ us) = netDepth ts + netDepth us := by
  induction ts with
  | nil => simp [netDepth]
  | cons t rest ih => simp [netDepth, ih]; omega

theorem depthFrom?_append (ts us : List Token) (depth : Nat) :
    depthFrom? depth (ts ++ us) = (depthFrom? depth ts).bind fun d => depthFrom? d us := by
  induction ts generalizing depth with
  | nil => rfl
  | cons t rest ih =>
    simp only [List.cons_append, depthFrom?]
    split
    · rfl
    · exact ih _

/-- Where values never run short, the depth changes by the net depth. -/
theorem depthFrom?_eq {ts : List Token} {depth d : Nat} (h : depthFrom? depth ts = some d) :
    (d : Int) = depth + netDepth ts := by
  induction ts generalizing depth with
  | nil =>
    simp only [depthFrom?, Option.some.injEq] at h
    simp [netDepth, h]
  | cons t rest ih =>
    simp only [depthFrom?] at h
    split at h
    · simp at h
    · have := ih h
      simp only [netDepth]
      omega

end Reckon.Postfix
