import FrontEnd.Proofs.Typing.Registration

/-!
# What the names of functions mean

A name means a function of the nearest block around it that has one of this name, wherever in the block it is declared.
The frames that are open at a node agree with this.

* `Expr.functions`, `Expr.Resolves` : the functions of a block, and the function that a name means at a path;
* `Sees` : frames in which names of functions are looked up as they are meant at a path; `Sees.extend`, `Sees.enter` :
  steps of a check and new frames without functions keep this;
* `Sees.part`, `Sees.inBlock` : from a node to its parts, in the same frames or, for a block, in those with its
  functions.
-/

namespace FrontEnd

namespace Expr

/-- The functions that a node declares for everything inside it. -/
def functions : Expr → List Function
  | block _ functions _ => functions
  | _ => []

/-- At a path of the program, `id` means the function whose body is at a site: a function of the node around, or, if
that has none of this name, what `id` means there. -/
inductive Resolves (root : Path) (program : Expr) (id : Text) : Path → Path → Prop
  | here {k j : Nat} {q : Path} {e : Expr} {f : Function} (hn : (q, e) ∈ nodes root program)
    (hf : e.functions[j]? = some f) (hname : f.signature.name = id) : Resolves root program id (k :: q) (j :: q)
  | outer {k : Nat} {q site : Path} {e : Expr} (hn : (q, e) ∈ nodes root program)
    (hno : ∀ f ∈ e.functions, f.signature.name ≠ id) (h : Resolves root program id q site) :
    Resolves root program id (k :: q) site

end Expr

namespace Typing
open FrontEnd.Expr Env

/-- The closure of a function that is looked up in `frames` is that of the function which its name means at `p`. -/
def Sees (root : Path) (program : Expr) (closures : Array Closure) (frames : List Frame) (p : Path) : Prop :=
  ∀ id i site, frames.findSome? (·.funs.find? id) = some i → Resolves root program id p site →
    ∃ c, closures[i]? = some c ∧ c.site = site

namespace Sees
variable {root p : Path} {program e : Expr} {closures : Array Closure} {frames frames' : List Frame} {env env' : Env}

theorem nil : Sees root program closures [] p := by
  intro id i site hi
  cases hi

/-- Only the functions of the frames matter. -/
theorem of_funs (h : Sees root program closures frames p)
    (hf : ∀ id, frames'.findSome? (·.funs.find? id) = frames.findSome? (·.funs.find? id)) :
    Sees root program closures frames' p := by
  intro id i site hi hr
  rw [hf] at hi
  exact h id i site hi hr

theorem grow (h : Sees root program env.closures frames p) (hg : Grows env env') :
    Sees root program env'.closures frames p := by
  intro id i site hi hr
  obtain ⟨c, hc, hsite⟩ := h id i site hi hr
  obtain ⟨progress, hc'⟩ := hg.closures i c hc
  exact ⟨_, hc', hsite⟩

theorem extend (h : Sees root program env.closures env.frames p) (hx : Extends env env') :
    Sees root program env'.closures env'.frames p :=
  (h.grow hx.toGrows).of_funs hx.lookupFun?_eq

theorem enter (h : Sees root program env.closures env.frames p) :
    Sees root program env.enter.closures env.enter.frames p :=
  h.of_funs fun _ => rfl

theorem part {k : Nat} (h : Sees root program closures frames p) (hn : (p, e) ∈ nodes root program)
    (hf : e.functions = []) : Sees root program closures frames (k :: p) := by
  intro id i site hi hr
  cases hr with
  | here hn' hf' hname =>
    rw [nodes_unique hn' hn, hf] at hf'
    simp at hf'
  | outer _ _ hr => exact h id i site hi hr

/-- Inside a block the names of its functions mean these, and all other names mean what they mean at the block. -/
theorem inBlock {loc : Location} {functions : List Function} {statements : List Expr} {funs : Dictionary Nat} {k : Nat}
    (h : Sees root program env.closures env.frames p) (hreg : Registered p env functions funs (· = funs) env')
    (hn : (p, .block loc functions statements) ∈ nodes root program) :
    Sees root program env'.closures ({ id := env.nextScope, funs } :: env.frames) (k :: p) := by
  intro id i site hi hr
  rw [List.findSome?_cons] at hi
  cases hr with
  | @here _ j _ _ f hn' hf hname =>
    rw [nodes_unique hn' hn] at hf
    rw [(hreg.names id _).2 ⟨j, f, hf, hname, rfl⟩] at hi
    obtain rfl := Option.some.inj hi
    obtain ⟨_, -, hc⟩ := hreg.after j f hf
    exact ⟨_, hc, rfl⟩
  | outer hn' hno hr =>
    rw [nodes_unique hn' hn] at hno
    -- no function of the block has this name, so the look-up goes on in the frames outside
    have hnone : funs.find? id = none := by
      rw [Option.eq_none_iff_forall_ne_some]
      intro j hj
      obtain ⟨k, f, hk, hname, -⟩ := (hreg.names id j).1 hj
      exact hno f (List.mem_of_getElem? hk) hname
    rw [hnone] at hi
    obtain ⟨c, hc, hsite⟩ := h id i site hi hr
    exact ⟨c, (hreg.before i (Array.getElem?_eq_some_iff.1 hc).1).trans hc, hsite⟩

end Sees
end Typing
end FrontEnd
