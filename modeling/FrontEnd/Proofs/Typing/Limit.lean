import FrontEnd.Proofs.Typing.Comparison

/-!
# Greater limits

A check that is not given up does not depend on its limit.

* `Approximates` : a step does what another one does, unless it is given up; `approximation` : this is a comparison of
  the two;
* `Approximates.rule`, `Approximates.bodyRule` : the rules keep this from their walkers;
* `typeOf_approximates` : so checks within a limit approximate those within a greater one.
-/

namespace FrontEnd.Typing
open Check

/-- `x` does what `y` does, unless it is given up for nesting too deeply. -/
def Approximates {α : Type} (x y : Check α) : Prop :=
  ∀ env, x env = y env ∨ ∃ env', x env = .error (.internal .nestedTooDeeply) env'

structure Walker.Approximates (v w : Walker) : Prop where
  typeOf : ∀ p e, Typing.Approximates (v.typeOf p e) (w.typeOf p e)
  checkClosure : ∀ occasion i, Typing.Approximates (v.checkClosure occasion i) (w.checkClosure occasion i)

/-- Two runs in the same environment, of which the first may be given up. -/
def approximation : Comparison := .alone (fun _ => True) (fun _ _ _ => True) fun _ _ _ => True

instance : approximation.Lawful := Comparison.alone_lawful {
  refl := fun _ => trivial
  trans := fun _ _ => trivial
  breaks_refl := fun _ => trivial
  breaks_append := fun _ _ => trivial
  breaks_after := fun _ _ => trivial
  note := fun _ _ _ => ⟨trivial, trivial⟩
  enter := fun _ => trivial
  leave := fun _ _ _ => ⟨trivial, trivial⟩
  breaks_leave := fun _ => trivial }

namespace Approximates
open Comparison
variable {α : Type} {env env' : Env}

theorem iff_holds (names : List Text) {x y : Check α} :
    Approximates x y ↔ ∀ env, approximation.Holds names x y env env fun _ => True := by
  refine forall_congr' fun env => ?_
  unfold Holds approximation alone
  cases hx : x env with
  | ok a env₁ => simp [eq_comm]
  | error fault env₁ =>
    by_cases hfault : fault = .internal .nestedTooDeeply
    · simp [hfault]
    · simp [hfault, eq_comm]

theorem same (names : List Text) (x : Check α) : approximation.Holds names x x env env' fun _ => True :=
  .of_self (·.2) ((iff_holds names).1 (fun _ => .inl rfl) env)

/-! ## Rules -/

section
variable {v w : Walker} (hw : Walker.Approximates v w) {p : Path}
include hw

theorem walks (es : List Expr) (i : Nat) (env : Env) : approximation.Walks v w (fun _ _ => True) p i es es env :=
  .of_same fun _ part _ _ env₁ _ _ =>
    .of_self (·.2) (((iff_holds _).1 (hw.typeOf _ part) env₁).weaken fun _ _ => ⟨trivial, trivial⟩)

theorem bodyRule (occasion : Occasion) (i : Nat) : Approximates (bodyRule v occasion i) (bodyRule w occasion i) := by
  have hbody : ∀ (site : Path) (f : Function) env env',
      approximation.Holds [] (checkFunction v site f) (checkFunction w site f) env env' fun _ => True :=
    fun site f env env' => Holds.checkFunction (same _ _)
      (fun {_ env₁ _} _ => .of_self (·.2) ((iff_holds []).1 (hw.typeOf _ _) env₁)) fun _ _ _ _ _ => same [] _
  refine (iff_holds []).2 fun env => (same [] _).bind fun _ env₁ env₁' _ _ => Holds.assuming fun ⟨_, henv⟩ => ?_
  subst henv
  refine Holds.get ((same [] _).bind fun frames env₂ env₂' _ _ => ?_)
  refine (Holds.inFrames ?_ (hbody _ _ _ _)).bind fun _ _ _ _ _ => same [] _
  rintro ⟨-, rfl⟩
  exact within_alone trivial (fun _ _ => ⟨trivial, trivial⟩) fun _ => trivial

theorem rule (e : Expr) : Approximates (rule v p e) (rule w p e) := by
  cases hscope : e.changesScope with
  | false =>
    refine (iff_holds _).2 fun env => (Holds.rule (.refl (fun _ => rfl) e) hscope ?_ ?_ (walks hw _ _ _)).ended
    · exact fun _ _ _ => trivial
    · exact fun _ _ _ => trivial
  | true =>
    cases e with
    | letIn loc id value =>
      exact (iff_holds _).2 fun env => (Holds.letRule rfl trivial (fun _ _ _ _ => same _ _) (walks hw _ _ _)).ended
    | block loc functions statements =>
      exact (iff_holds []).2 fun env =>
        (Holds.blockRule rfl rfl (same _ _) (same _ _) fun {_ env₁} _ => walks hw _ _ env₁).ended
    | call loc callee args =>
      refine (iff_holds _).2 fun env => (Holds.callRule rfl callee ?_ (walks hw _ _ _) ?_ ?_).ended
      · exact List.forall₂_same.2 fun arg _ => .refl (fun _ => rfl) arg
      · exact fun i hr _ => callee_alone hr
      · exact fun i _ _ env₁ _ _ => .of_self (·.2) ((iff_holds []).1 (hw.checkClosure .call i) env₁)
    | funDecl loc id =>
      exact (iff_holds []).2 fun env =>
        (Holds.declarationRule id fun i _ => (iff_holds []).1 (hw.checkClosure .declaration i) env).ended
    | _ => cases hscope

end
end Approximates

/-! ## Limits -/

theorem walker_approximates {limit limit' : Nat} (h : limit ≤ limit') :
    Walker.Approximates (walker limit) (walker limit') := by
  induction limit generalizing limit' with
  | zero => exact ⟨fun _ _ env => .inr ⟨env, rfl⟩, fun _ _ env => .inr ⟨env, rfl⟩⟩
  | succ limit ih =>
    obtain ⟨limit', rfl⟩ := Nat.exists_eq_add_of_lt h
    have hw := ih (show limit ≤ limit + limit' from Nat.le_add_right _ _)
    refine ⟨fun p e => (Approximates.iff_holds []).2 fun env => ?_, fun occasion i => .bodyRule hw occasion i⟩
    exact ((Approximates.iff_holds []).1 (Approximates.rule hw e) env).noted

theorem typeOf_approximates {limit limit' : Nat} (h : limit ≤ limit') (p : Path) (e : Expr) :
    Approximates (typeOf limit p e) (typeOf limit' p e) :=
  (walker_approximates h).typeOf p e

end FrontEnd.Typing
