import Mathlib.Tactic.ByCases

namespace Foundations.Ownership

variable {P O : Type} {refers refers' inside inside' : P → O → Prop} {gone gone' : P → Prop} {p : P}

/-- The holders that go with those of `gone`: an object that loses all its holders takes the holders
inside it along. -/
inductive Goes (refers inside : P → O → Prop) (gone : P → Prop) : P → Prop
  | given {p : P} : gone p → Goes refers inside gone p
  | within {p q : P} {o : O} : inside p o → refers q o →
    (∀ q, refers q o → Goes refers inside gone q) →
      Goes refers inside gone p

theorem Goes.lift (h : Goes refers' inside' gone' p) (hinside : ∀ p o, inside' p o → inside p o)
    (hrefers : ∀ p o, refers' p o → refers p o)
    (hlost : ∀ p o, refers p o → refers' p o ∨ Goes refers inside gone p)
    (hgone : ∀ p, gone' p → Goes refers inside gone p) : Goes refers inside gone p := by
  induction h with
  | given hp => exact hgone _ hp
  | within hin href _ ih =>
    apply Goes.within (hinside _ _ hin) (hrefers _ _ href)
    intro q hq
    rcases hlost q _ hq with hq' | hgoes
    · exact ih q hq'
    · exact hgoes

theorem Goes.mono (h : Goes refers inside gone p) (hgone : ∀ p, gone p → gone' p) :
    Goes refers inside gone' p :=
  h.lift (fun _ _ hin => hin) (fun _ _ href => href) (fun _ _ href => .inl href) fun p hp =>
    .given (hgone p hp)

end Foundations.Ownership
