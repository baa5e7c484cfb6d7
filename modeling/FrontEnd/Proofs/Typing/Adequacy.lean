import FrontEnd.Proofs.Typing.Programs

/-!
# Checking and declarative typing

* `check_iff_typeOf?` : a program that states all return types checks just when it has a type declaratively, and with
  that type; any program that checks has that type with the return types that the check settled.
-/

namespace FrontEnd.Typing
open FrontEnd.Expr Env

theorem settle_empty (site : Path) (s : Signature) : s.settle {} site = s := by
  simp [Signature.settle]

/-- Checking and declarative typing accept the same programs that state all return types, with the same types. What is
checked without that is typed the same with the return types that the check settled. -/
theorem check_iff_typeOf? {tokens : TokenStream} {program : Expr} (h : readProgram tokens = .ok program) :
    (program.Annotated → ∀ ty, (∃ env, check programRoot program {} = .ok ty env) ↔ Judge.typeOf? program = some ty) ∧
      ∀ ty env, check programRoot program {} = .ok ty env →
        Judge.typeOf? (settle env.notes programRoot program) = some ty := by
  have hp := isProgram_of_readProgram h
  have hsim : ∀ n, _ := fun n => check_simulates n noMonitor hp (fun _ _ => rfl) .empty
  simp only [check_eq_watched] at hsim
  refine ⟨fun hannotated ty => ?_, fun ty env hrun => ?_⟩
  · have hplain : Plain program {} := ⟨hannotated, settle_empty⟩
    have hsim := hsim {}
    rw [settle_eq_self settle_empty] at hsim
    constructor
    · rintro ⟨env, hrun⟩
      rw [hrun] at hsim
      obtain ⟨hc, -, -, hjudge⟩ := hsim
      rw [Judge.typeOf?, show [] = Env.scopes {} {} from rfl, hjudge (hplain.agrees hc)]
      rfl
    · intro hty
      rw [Judge.typeOf?, show [] = Env.scopes {} {} from rfl] at hty
      cases hrun : check programRoot program {} with
      | error fault env =>
        rw [hrun] at hsim
        rw [hsim.2 hplain fun f fs hs => by simp at hs] at hty
        cases hty
      | ok ty' env =>
        rw [hrun] at hsim
        obtain ⟨hc, -, -, hjudge⟩ := hsim
        rw [hjudge (hplain.agrees hc)] at hty
        cases hty
        exact ⟨env, rfl⟩
  · have hsim := hsim env.notes
    rw [hrun] at hsim
    obtain ⟨-, -, -, hjudge⟩ := hsim
    rw [Judge.typeOf?, show [] = Env.scopes env.notes {} from rfl, hjudge (agrees_notes env)]
    rfl

/-! ## Stated and settled return types -/

theorem forwardCall_annotated : ForwardCall.program.Annotated := by
  rintro p site f ⟨k, q, loc, functions, statements, -, hn, hk⟩
  simp only [ForwardCall.program, ForwardCall.function, ForwardCall.call, declarationOf, nodes, nodesOf, children,
    List.map_cons, List.map_nil, List.cons_append, List.nil_append, List.append_nil, List.mem_cons, List.not_mem_nil,
    Prod.mk.injEq, block.injEq, reduceCtorEq, and_false, or_false] at hn
  obtain ⟨-, -, rfl, -⟩ := hn
  obtain rfl := List.mem_singleton.1 (List.mem_of_getElem? hk)
  decide

/-- A program with a function that does not state its return type. -/
def unstatedProgram : Expr :=
  let f : Function := ⟨⟨"f", ⟨"a", 1, 1⟩, [], .any⟩, .literal ⟨"a", 1, 9⟩ (.int 1)⟩
  .block ⟨"a", 1, 1⟩ [f] [declarationOf f.signature, .call ⟨"a", 1, 11⟩ "f" []]

theorem readProgram_unstated : readProgram (.ofSources [⟨"fun f()=1;f()", "a"⟩]) = .ok unstatedProgram := by
  with_unfolding_all rfl

theorem stated_and_settled_typeOf? : Judge.typeOf? ForwardCall.program = some .unit ∧
    ∃ env, check programRoot unstatedProgram {} = .ok .int env ∧
      Judge.typeOf? (settle env.notes programRoot unstatedProgram) = some .int := by
  obtain ⟨hstated, -⟩ := check_iff_typeOf? ForwardCall.readProgram_source
  obtain ⟨-, hsettled⟩ := check_iff_typeOf? readProgram_unstated
  have hrun : ∃ env, check programRoot unstatedProgram {} = .ok .int env := ⟨_, rfl⟩
  refine ⟨(hstated forwardCall_annotated _).1 ⟨_, rfl⟩, ?_⟩
  obtain ⟨env, hrun⟩ := hrun
  exact ⟨env, hrun, hsettled _ _ hrun⟩

end FrontEnd.Typing
