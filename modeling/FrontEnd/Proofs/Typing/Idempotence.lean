import FrontEnd.Proofs.Typing.Programs
import FrontEnd.Proofs.Typing.Repetition

/-!
# Checking again

* `Repeats.rule`, `Repeats.bodyRule` : the rules repeat what they do if the walker does;
* `walker_repeats` : it does, by induction on the limit;
* `check_again` : a program that is checked again, with the return types that the first check has settled, has the same
  type or the same fault, and nothing changes in its notes.
-/

namespace FrontEnd.Typing
open FrontEnd.Expr Env Check

section
variable (root : Path) (program : Expr) (o : Offset) (n : Notes)

structure Walker.Repeats (w : Walker) : Prop where
  typeOf : ∀ {p e env env₂}, (p, e) ∈ nodes root program →
    (repetition root program o n).Holds e.bindings (w.typeOf p e) (w.typeOf p e) env env₂ (· ≠ .any)
  checkClosure : ∀ {occasion i c env env₂}, env.closures[i]? = some c →
    (occasion = .call → c.scope ∈ env.frames.map (·.id)) →
    (repetition root program o n).Holds [] (w.checkClosure occasion i) (w.checkClosure occasion (i + o.closures))
      env env₂ fun _ => True

end

namespace Repeats
open Comparison
variable {root : Path} {program : Expr} {o : Offset} {n : Notes} {w : Walker} {p : Path} {env env₂ : Env}

/-! ## Functions -/

/-- The type of a body against the return type of its function. A function that states none has, in the second run, the
type that its body has now. -/
theorem settleReturn {site : Path} {f : Function} {ty : Ty} (hn : Settles root program n)
    (hf : Places root program site f) (hty : ty ≠ .any) :
    (repetition root program o n).Holds [] (settleReturn site f ty) (settleReturn site f ty) env env₂ (· ≠ .any) := by
  refine Holds.get (Holds.assuming fun ⟨ho, hm⟩ => ?_)
  have hmirror : ∀ {ret : Ty}, env.notes.Foretold n → n.returnOf site f.signature = ret →
      env₂.notes.returnOf site f.signature = ret := by
    rintro ret hforetold rfl
    rw [Notes.returnOf, Notes.returnOf, (hm hforetold).notes.returns]
  dsimp only
  by_cases hret : env.notes.returnOf site f.signature = .any
  · obtain ⟨ho', ha, hsettled⟩ := ho.setReturn hf hret hty
    have hbefore : (env.notes.setReturn site ty).Foretold n → env.notes.Foretold n :=
      fun hforetold site ty hs => hforetold site ty (ha.foretold site ty hs)
    rw [if_pos hret]
    refine fun _ => ⟨ha, hty, env₂, ⟨ho', fun hforetold => ?_⟩, fun hforetold => ?_⟩
    · have hm := hm (hbefore hforetold)
      exact ⟨hm.frames, hm.size, hm.closures, hm.nextScope, ⟨hm.notes.types, hm.notes.returns⟩, hforetold⟩
    · have hreturn : n.returnOf site f.signature = ty := by
        rw [Notes.returnOf, hforetold site ty hsettled]
        rfl
      rw [hmirror (hbefore hforetold) hreturn, if_neg hty, if_neg (not_not.2 rfl)]
      rfl
  · rw [if_neg hret]
    have hsame : env.notes.Foretold n →
        env₂.notes.returnOf site f.signature = env.notes.returnOf site f.signature :=
      fun hforetold => hmirror hforetold (hn.returnOf_eq (c := ⟨f, site, .unchecked, [], 0⟩) hforetold hf hret)
    refine Holds.congr (fun _ hforetold => by rw [hsame hforetold, if_neg hret]) ?_
    exact .check (fun _ _ => Iff.rfl) rfl fun _ => .pure hty

theorem checkFunction {site : Path} {f : Function} (hn : Settles root program n) (hwf : program.WellFormed)
    (hw : w.Repeats root program o n) (hf : Places root program site f) :
    (repetition root program o n).Holds [] (checkFunction w site f) (checkFunction w site f) env env₂ (· ≠ .any) := by
  obtain ⟨hparams, -⟩ := hf.wellFormed hwf
  refine .checkFunction ?_ (fun _ => hw.typeOf hf.body_mem_nodes) fun t _ _ _ ht => settleReturn hn hf ht
  exact .bindParameters rfl (fun _ _ => trivial) fun param hparam _ _ => bindVar (hparams param hparam)

/-- The frames in which the body of a registered function is checked. -/
theorem bodyFrames_eq {occasion : Occasion} {i : Nat} {c : Closure} (ho : Orderly root program env)
    (hc : env.closures[i]? = some c) (hs : occasion = .call → c.scope ∈ env.frames.map (·.id)) :
    ∃ frames, bodyFrames occasion c env = .ok frames env ∧ Typed frames ∧
      WellLinked env.closures env.nextScope frames ∧
      ∀ env₂, Mirrors o n env env₂ → bodyFrames occasion (c.shift o) env₂ = .ok (frames.map (·.shift o)) env₂ := by
  cases occasion with
  | declaration => exact ⟨c.captured, rfl, (ho.closed i c hc).2, (ho.captured i c hc).1, fun _ _ => rfl⟩
  | call =>
    obtain ⟨g, hg, hid⟩ := List.mem_map.1 (hs rfl)
    obtain ⟨f, fs, hdrop⟩ : ∃ f fs, env.frames.dropWhile (·.id != c.scope) = f :: fs := by
      refine List.exists_cons_of_ne_nil fun hnil => ?_
      have hne := List.dropWhile_eq_nil_iff.1 hnil g hg
      simp [hid] at hne
    have hfound : env.declaringFrames? c.scope = some ({ f with vars := ∅ } :: fs) := by
      rw [Env.declaringFrames?, hdrop]
    refine ⟨_, ?_, ?_, ho.toSound.declaringFrames? hfound, fun env₂ hm => ?_⟩
    · rw [bodyFrames, declaringFrames, get_bind_apply, hfound]
      rfl
    · have hsuffix : f :: fs <:+ env.frames := hdrop ▸ List.dropWhile_suffix _
      refine List.forall_mem_cons.2 ⟨fun id ty hty => ?_, fun g hg => ho.typed g (hsuffix.subset (.tail _ hg))⟩
      cases hty
    · have hfound₂ := hm.declaringFrames?_eq c.scope
      rw [hfound] at hfound₂
      show declaringFrames (c.scope + o.scopes) env₂ = _
      rw [declaringFrames, get_bind_apply, hfound₂]
      rfl

theorem bodyRule {occasion : Occasion} {i : Nat} {c : Closure} (hn : Settles root program n)
    (hwf : program.WellFormed) (hw : w.Repeats root program o n) (hc : env.closures[i]? = some c)
    (hs : occasion = .call → c.scope ∈ env.frames.map (·.id)) :
    (repetition root program o n).Holds [] (bodyRule w occasion i) (bodyRule w occasion (i + o.closures)) env env₂
      fun _ => True := by
  refine (setProgress i .checking).bind fun _ env' env₂' ha _ => .get (.assuming fun ⟨ho, hm⟩ => ?_)
  obtain ⟨c', hc', hscope⟩ := ha.closures i c hc
  have hopen : occasion = .call → c'.scope ∈ env'.frames.map (·.id) := by
    rw [hscope, ha.ids]
    exact hs
  obtain ⟨frames, hrun, htyped, hlinked, hrun₂⟩ := bodyFrames_eq ho hc' hopen
  rw [closure_eq hc']
  refine .congr (fun _ hforetold => by rw [(hm hforetold).closure_eq hc'])
    (.read hrun (fun _ hforetold => hrun₂ env₂' (hm hforetold)) ?_)
  have hplace := (ho.closed i c' hc').1
  exact (inFrames htyped hlinked fun _ => checkFunction hn hwf hw hplace).bind fun _ _ _ _ _ => setProgress i .checked

/-! ## Nodes -/

section
variable (hn : Settles root program n) (hw : w.Repeats root program o n) {e : Expr} (he : (p, e) ∈ nodes root program)
include hw

theorem walks {i : Nat} {es : List Expr}
    (hes : ∀ (k : Nat) part, es[k]? = some part → ((i + k) :: p, part) ∈ nodes root program) (env : Env) :
    (repetition root program o n).Walks w w (fun _ _ => True) p i es es env :=
  .of_same fun k part hk _ _ _ _ => (hw.typeOf (hes k part hk)).weaken fun _ hty => ⟨hty, trivial⟩

include hn he

theorem rule : (repetition root program o n).Holds e.bindings (rule w p e) (rule w p e) env env₂ (· ≠ .any) := by
  have hparts : ∀ env, (repetition root program o n).Walks w w (fun _ _ => True) p 0 e.children e.children env :=
    walks hw fun k part hk => by
      rw [Nat.zero_add]
      exact part_mem_nodes he hk
  cases hscope : e.changesScope with
  | false =>
    refine (Holds.rule (.refl (fun _ => rfl) e) hscope ?_ ?_ (hparts _)).weaken fun _ h => h.1
    · exact fun _ _ _ => trivial
    · exact fun _ _ _ => trivial
  | true =>
    cases e with
    | letIn loc id value =>
      exact (Holds.letRule rfl trivial (fun _ hty _ _ => bindVar hty) (hparts _)).weaken fun _ h => h.1
    | block loc functions statements =>
      refine (Holds.blockRule rfl rfl ?_ linkSiblings fun {_ env₁} _ => walks hw ?_ env₁).weaken fun _ h => h.1
      · refine .registerAll (List.forall₂_same.2 fun f _ => .of ⟨rfl, rfl, rfl, rfl⟩ (.refl (fun _ => rfl) f.body))
          (fun id hr hforetold => (hr.2 hforetold).hasFun_eq id) fun k f f' hk hk' _ => ?_
        obtain rfl := Option.some.inj (hk.symm.trans hk')
        exact register ⟨k, p, loc, functions, statements, by rw [Nat.zero_add], he, hk⟩
      · exact fun k part hk => part_mem_nodes he (children_of_statements hk)
    | call loc callee args =>
      refine .assuming fun hr => ?_
      refine (Holds.callRule rfl callee ?_ (hparts _) (fun _ => Repeats.callee hn) ?_).weaken fun _ h => h.1
      · exact List.forall₂_same.2 fun arg _ => .refl (fun _ => rfl) arg
      · intro i hi _ env₁ _ ha
        obtain ⟨c, hc, hopen⟩ := hr.1.exists_closure hi
        obtain ⟨c₁, hc₁, hscope⟩ := ha.closures i c hc
        refine hw.checkClosure hc₁ fun _ => ?_
        rw [hscope, ha.ids]
        exact hopen
    | funDecl loc id =>
      refine .assuming fun hr => ?_
      have hcheck : ∀ i, env.lookupFun? id = some i → (repetition root program o n).Holds []
          (w.checkClosure .declaration i) (w.checkClosure .declaration (i + o.closures)) env env₂ fun _ => True := by
        intro i hi
        obtain ⟨c, hc, -⟩ := hr.1.exists_closure hi
        exact hw.checkClosure hc fun hcall => by cases hcall
      exact (Holds.declarationRule id hcheck).weaken fun _ h => h.1
    | _ => cases hscope

end
end Repeats

/-! ## Limits -/

section
variable {root : Path} {program : Expr} {o : Offset} {n : Notes}

theorem walker_repeats (hn : Settles root program n) (hwf : program.WellFormed) (limit : Nat) :
    (walker limit).Repeats root program o n := by
  induction limit with
  | zero => exact ⟨fun _ => .stop _, fun _ _ => .stop _⟩
  | succ limit ih => exact ⟨fun he => (Repeats.rule hn ih he).noted, fun hc hs => Repeats.bodyRule hn hwf ih hc hs⟩

theorem mirrors_again {env again : Env} (hf : env.frames = []) (h : again = env ∨ again = { notes := env.notes }) :
    ∃ o, Mirrors o env.notes {} again := by
  have hnotes : env.notes.Mirrors {} env.notes := ⟨fun p => by simp, fun _ => rfl⟩
  have hforetold : Notes.Foretold {} env.notes := fun site ty h => by simp at h
  rcases h with rfl | rfl
  · exact ⟨⟨again.closures.size, again.nextScope⟩, hf, by simp, fun i => by simp, by simp, hnotes, hforetold⟩
  · exact ⟨⟨0, 0⟩, rfl, rfl, fun i => rfl, rfl, hnotes, hforetold⟩

/-- What the check of a program leaves behind, also when it fails. -/
theorem check_settles (hp : program.IsProgram) :
    (∀ ty env, check programRoot program {} = .ok ty env → Settles programRoot program env.notes ∧ env.frames = []) ∧
      ∀ fault env, check programRoot program {} = .error fault env →
        Settles programRoot program env.notes ∧ env.frames = [] := by
  have hempty : Settles programRoot program {} := fun site ty h => by simp at h
  have hframes : ∀ {env : Env}, Advances {} env → env.frames = [] := fun ha => List.map_eq_nil_iff.1 ha.ids
  obtain ⟨o, hm⟩ := @mirrors_again {} {} rfl (.inl rfl)
  have hrun : (repetition programRoot program o {}).Holds program.bindings (check programRoot program)
      (check programRoot program) {} {} (· ≠ .any) :=
    (walker_repeats hempty hp.1 (nestingLimit {} program.nodeCount)).typeOf (self_mem_nodes programRoot program)
  have hrun := hrun ⟨.empty {} hempty, fun _ => hm⟩
  constructor
  · intro ty env h
    rw [h] at hrun
    obtain ⟨ha, -, _, ⟨ho, -⟩, -⟩ := hrun
    exact ⟨ho.settled, hframes ha⟩
  · intro fault env h
    rw [h] at hrun
    obtain ⟨⟨hsettles, ha⟩, -⟩ := hrun
    exact ⟨hsettles, hframes ha⟩

theorem check_of_typeOf {env : Env} {r : EStateM.Result Fault Env Ty}
    (h : typeOf (nestingLimit {} program.nodeCount) programRoot program env = r)
    (hr : ∀ env', r ≠ .error (.internal .nestedTooDeeply) env') : check programRoot program env = r := by
  have hlimit := nestingLimit_empty_le env program.nodeCount
  rcases typeOf_approximates hlimit programRoot program env with heq | ⟨env', herror⟩
  · exact heq.symm.trans h
  · exact absurd (h.symm.trans herror) (hr env')

/-- A program is checked again, in the environment that its check has left behind or in a new one, with the types and
the return types noted that it has found, until it ended or failed: the second check finds the same type or the same
fault, and its notes are the same. -/
theorem check_again {tokens : TokenStream} (h : readProgram tokens = .ok program) :
    (∀ ty env, check programRoot program {} = .ok ty env → ∀ again, again = env ∨ again = { notes := env.notes } →
        ∃ env', check programRoot program again = .ok ty env' ∧ env'.notes.Same env.notes) ∧
      ∀ fault env, check programRoot program {} = .error fault env → fault.IsTyping ∧
        ∀ again, again = env ∨ again = { notes := env.notes } →
          ∃ env', check programRoot program again = .error fault env' ∧ env'.notes.Same env.notes := by
  have hp := isProgram_of_readProgram h
  obtain ⟨hok, herror⟩ := check_settles hp
  have hrepeats : ∀ o n again, Settles programRoot program n → (repetition programRoot program o n).Holds
      program.bindings (check programRoot program)
      (typeOf (nestingLimit {} program.nodeCount) programRoot program) {} again (· ≠ .any) :=
    fun o n again hn => (walker_repeats hn hp.1 _).typeOf (self_mem_nodes programRoot program)
  have hstart : Orderly programRoot program {} := .empty {} fun site ty h => by simp at h
  constructor
  · intro ty env hrun again hagain
    obtain ⟨hsettles, hframes⟩ := hok ty env hrun
    obtain ⟨o, hm⟩ := mirrors_again hframes hagain
    have hsecond := hrepeats o env.notes again hsettles ⟨hstart, fun _ => hm⟩
    rw [hrun] at hsecond
    obtain ⟨-, -, env', ⟨-, hm'⟩, hrun'⟩ := hsecond
    exact ⟨env', check_of_typeOf (hrun' fun _ _ hs => hs) (by simp), (hm' fun _ _ hs => hs).notes.same⟩
  · intro fault env hrun
    have htyping := isTyping_of_check_eq_error hp hrun
    refine ⟨htyping, fun again hagain => ?_⟩
    obtain ⟨hsettles, hframes⟩ := herror fault env hrun
    obtain ⟨o, hm⟩ := mirrors_again hframes hagain
    have hsecond := hrepeats o env.notes again hsettles ⟨hstart, fun _ => hm⟩
    rw [hrun] at hsecond
    obtain ⟨-, hfails⟩ := hsecond
    obtain ⟨_, env', hrun', rfl, hnotes⟩ := hfails fun _ => rfl
    refine ⟨env', check_of_typeOf hrun' fun env'' heq => ?_, hnotes.same⟩
    obtain ⟨cause, loc, rfl⟩ := htyping
    cases heq

end

/-- A program in which a function's return type is settled before a fault is found. -/
def lateFault : Expr :=
  let f : Function := ⟨⟨"f", ⟨"a", 1, 1⟩, [], .any⟩, .literal ⟨"a", 1, 9⟩ (.int 1)⟩
  .block ⟨"a", 1, 1⟩ [f] [declarationOf f.signature, .name ⟨"a", 1, 11⟩ "x"]

theorem readProgram_lateFault : readProgram (.ofSources [⟨"fun f()=1;x", "a"⟩]) = .ok lateFault := by
  with_unfolding_all rfl

theorem check_again_lateFault : ∃ fault env env', check programRoot lateFault {} = .error fault env ∧
    env.notes.returns[([0, 0] : Path)]? = some .int ∧ env.closures.size = 1 ∧
    check programRoot lateFault env = .error fault env' ∧ env'.notes.Same env.notes := by
  obtain ⟨-, herror⟩ := check_again readProgram_lateFault
  have hrun : ∃ env, check programRoot lateFault {} = .error (.typing (.unknownVariable "x") ⟨"a", 1, 11⟩) env ∧
      env.notes.returns[([0, 0] : Path)]? = some .int ∧ env.closures.size = 1 := ⟨_, rfl, rfl, rfl⟩
  obtain ⟨env, hrun, hret, hsize⟩ := hrun
  obtain ⟨-, hagain⟩ := herror _ env hrun
  obtain ⟨env', hrun', hsame⟩ := hagain env (.inl rfl)
  exact ⟨_, env, env', hrun, hret, hsize, hrun', hsame⟩

end FrontEnd.Typing
