import Bindery.Artifact.Basic
import Bindery.Doc.Printer
import Bindery.Proofs.NameMap

/-!
# Calls of a renderer

How the library uses a template engine, for every engine: it may keep state,
answer one call in two ways at two times, and fail whenever it likes. What it
did before a failure stays done (`Effect`).

The calls are seen by a renderer that notes them together with their answers
(`recorded`). `Makes` says of a program what it calls, what it returns and
which state it leaves, with the notes and without them. Steps in a row make
their calls in a row (`Makes.bind`), and a failure ends them
(`Makes.bind_error`), so the calls of a program follow its text.
-/

namespace Bindery

namespace Renderer

/-! ## Runs -/

/-- A step that may change the state of a renderer, also when it fails. -/
abbrev Effect (ε σ : Type) := ExceptT ε (StateM σ)

/-- One call of a renderer, and its answer. -/
structure Exchange (Env ε : Type) where
  template : String
  env : Env
  visibility : Visibility
  extra : ExtraArgs
  answer : Except ε String

variable {Env ε σ α β : Type}

def run (x : Effect ε σ α) (state : σ) : Except ε α × σ := (StateT.run (ExceptT.run x) state).run

theorem run_pure (a : α) (state : σ) : run (pure a : Effect ε σ α) state = (.ok a, state) := rfl

theorem run_bind (x : Effect ε σ α) (f : α → Effect ε σ β) (state : σ) :
    run (x >>= f) state =
      match run x state with
      | (.ok a, between) => run (f a) between
      | (.error e, after) => (.error e, after) := by
  show Id.run ((ExceptT.bindCont f (run x state).1).run (run x state).2) = _
  rcases run x state with ⟨_ | _, _⟩ <;> rfl

/-- A renderer with the answers of another one, that notes all exchanges. -/
def recorded (renderer : Renderer Env (Effect ε σ)) :
    Renderer Env (Effect ε (σ × List (Exchange Env ε))) :=
  fun template env visibility extra => ExceptT.mk do
    let (state, log) ← get
    let (answer, after) := run (renderer template env visibility extra) state
    set (after, log ++ [⟨template, env, visibility, extra, answer⟩])
    return answer

/-- Exchanges from one state to another: each answer is what the renderer gives
in the state that the exchanges before it leave. -/
inductive Exchanges (renderer : Renderer Env (Effect ε σ)) :
    σ → List (Exchange Env ε) → σ → Prop where
  | nil (state : σ) : Exchanges renderer state [] state
  | cons {state between after : σ} {exchange : Exchange Env ε} {rest : List (Exchange Env ε)}
      (h : run (renderer exchange.template exchange.env exchange.visibility exchange.extra) state =
        (exchange.answer, between))
      (hrest : Exchanges renderer between rest after) :
      Exchanges renderer state (exchange :: rest) after

theorem Exchanges.append {renderer : Renderer Env (Effect ε σ)} {state between after : σ}
    {first second : List (Exchange Env ε)} (hfirst : Exchanges renderer state first between)
    (hsecond : Exchanges renderer between second after) :
    Exchanges renderer state (first ++ second) after := by
  induction hfirst with
  | nil => exact hsecond
  | cons h _ ih => exact .cons h (ih hsecond)

/-- What a program does with a renderer from a given state on. `noted` is the
program `plain`, run with the recorded renderer. -/
structure Makes (renderer : Renderer Env (Effect ε σ))
    (noted : Effect ε (σ × List (Exchange Env ε)) α) (plain : Effect ε σ α) (state : σ)
    (exchanges : List (Exchange Env ε)) (result : Except ε α) (after : σ) : Prop where
  answered : Exchanges renderer state exchanges after
  run_plain : run plain state = (result, after)
  run_noted : ∀ log, run noted (state, log) = (result, after, log ++ exchanges)

section Steps

variable {renderer : Renderer Env (Effect ε σ)} {noted : Effect ε (σ × List (Exchange Env ε)) α}
  {plain : Effect ε σ α} {state between after : σ} {exchanges more : List (Exchange Env ε)}

theorem makes_pure (renderer : Renderer Env (Effect ε σ)) (a : α) (state : σ) :
    Makes renderer (pure a) (pure a) state [] (.ok a) state where
  answered := .nil state
  run_plain := run_pure a state
  run_noted log := by rw [run_pure, List.append_nil]

theorem exists_makes_call (renderer : Renderer Env (Effect ε σ)) (template : String) (env : Env)
    (visibility : Visibility) (extra : ExtraArgs) (state : σ) :
    ∃ answer after, Makes renderer (recorded renderer template env visibility extra)
      (renderer template env visibility extra) state
      [⟨template, env, visibility, extra, answer⟩] answer after :=
  ⟨_, _, .cons rfl (.nil _), rfl, fun _ => rfl⟩

theorem Makes.bind {a : α} {noted' : α → Effect ε (σ × List (Exchange Env ε)) β}
    {plain' : α → Effect ε σ β} {result : Except ε β}
    (h : Makes renderer noted plain state exchanges (.ok a) between)
    (hnext : Makes renderer (noted' a) (plain' a) between more result after) :
    Makes renderer (noted >>= noted') (plain >>= plain') state (exchanges ++ more) result
      after where
  answered := h.answered.append hnext.answered
  run_plain := by
    rw [run_bind, h.run_plain]
    exact hnext.run_plain
  run_noted log := by
    rw [run_bind, h.run_noted, ← List.append_assoc]
    exact hnext.run_noted (log ++ exchanges)

theorem Makes.bind_error {e : ε} (h : Makes renderer noted plain state exchanges (.error e) after)
    (noted' : α → Effect ε (σ × List (Exchange Env ε)) β) (plain' : α → Effect ε σ β) :
    Makes renderer (noted >>= noted') (plain >>= plain') state exchanges (.error e) after where
  answered := h.answered
  run_plain := by rw [run_bind, h.run_plain]
  run_noted log := by rw [run_bind, h.run_noted]

/-- What is done with the value of the last call makes no calls. -/
theorem Makes.bind_pure {result : Except ε α}
    (h : Makes renderer noted plain state exchanges result after) (f : α → β) :
    Makes renderer (noted >>= fun a => pure (f a)) (plain >>= fun a => pure (f a)) state exchanges
      (result.map f) after := by
  cases result with
  | error e => exact h.bind_error _ _
  | ok a =>
      rw [← List.append_nil exchanges]
      exact h.bind (makes_pure renderer (f a) after)

end Steps

end Renderer

open Renderer

variable {Env ε σ T : Type}

/-! ## Declarations -/

/-- The ways in which a declaration comes out: its public part fails, its
private part does, or it has both. -/
inductive RendersParts (template : String) (env : Env) (type : T) (extra : ExtraArgs) :
    List (Exchange Env ε) → Except ε (TypeDeclaration T) → Prop where
  | publicFails (e : ε) :
      RendersParts template env type extra
        [⟨template, env, .publicPart, extra, .error e⟩] (.error e)
  | privateFails (publicPart : String) (e : ε) :
      RendersParts template env type extra
        [⟨template, env, .publicPart, extra, .ok publicPart⟩,
          ⟨template, env, .privatePart, extra, .error e⟩] (.error e)
  | both (publicPart privatePart : String) :
      RendersParts template env type extra
        [⟨template, env, .publicPart, extra, .ok publicPart⟩,
          ⟨template, env, .privatePart, extra, .ok privatePart⟩]
        (.ok ⟨type, publicPart, privatePart⟩)

theorem TypeDeclaration.exists_rendersParts (renderer : Renderer Env (Effect ε σ))
    (template : String) (env : Env) (type : T) (extra : ExtraArgs) (state : σ) :
    ∃ exchanges result after,
      Makes renderer (render (recorded renderer) template env type extra)
        (render renderer template env type extra) state exchanges result after ∧
      RendersParts template env type extra exchanges result := by
  obtain ⟨answer, between, hpublic⟩ :=
    exists_makes_call renderer template env .publicPart extra state
  cases answer with
  | error e => exact ⟨_, _, _, hpublic.bind_error _ _, .publicFails e⟩
  | ok publicPart =>
      obtain ⟨answer, after, hprivate⟩ :=
        exists_makes_call renderer template env .privatePart extra between
      have hparts := hprivate.bind_pure (TypeDeclaration.mk type publicPart)
      cases answer with
      | error e => exact ⟨_, _, _, hpublic.bind hparts, .privateFails publicPart e⟩
      | ok privatePart => exact ⟨_, _, _, hpublic.bind hparts, .both publicPart privatePart⟩

-- counts its calls and fails at the second one; the count is there afterwards
example :
    let flaky : Renderer Unit (Effect Nat Nat) := fun template _ _ _ => do
      let count ← get
      set (count + 1)
      if count = 1 then throw count else return template
    run (TypeDeclaration.render flaky "type" () () .empty) 0 = (.error 1, 2) := rfl

/-! ## Documentation -/

namespace Doc

/-- What a template of the language finds under a name by itself. -/
def Language.templateValue? (lang : Language) (name : String) : Option String :=
  if name = "lang" then some lang.name
  else if name = "null" then some lang.nullName
  else if name = "TODO" then some lang.todoMarker
  else none

theorem Language.lookup_templateVars (lang : Language) (name : String) :
    lang.templateVars.reverse.lookup name = lang.templateValue? name := by
  show [("TODO", lang.todoMarker), ("null", lang.nullName), ("lang", lang.name)].lookup name = _
  unfold templateValue?
  rw [NameMap.lookup_cons_eq_ite, NameMap.lookup_cons_eq_ite, NameMap.lookup_cons_eq_ite,
    List.lookup_nil]
  by_cases hlang : name = "lang"
  · simp [hlang]
  · by_cases hnull : name = "null"
    · simp [hnull]
    · simp only [if_neg hlang, if_neg hnull]

theorem Printer.get?_templateArgs (p : Printer) (extra : ExtraArgs) (name : String) :
    (p.templateArgs extra).get? name =
      (extra.get? name).or (p.templateLang.templateValue? name) := by
  rw [templateArgs, NameMap.get?_insertMany_entries, NameMap.get?_ofList,
    Language.lookup_templateVars]

theorem Printer.exists_makes_printEntity (renderer : Renderer Env (Effect ε σ)) (entity : String)
    (env : Env) (extra : ExtraArgs) (templateLang : Language) (state : σ) :
    ∃ args answer after,
      (∀ name, args.get? name = (extra.get? name).or (templateLang.templateValue? name)) ∧
      ∀ lang column,
        let p : Printer := ⟨lang, templateLang⟩
        Makes renderer (p.printEntity (recorded renderer) entity env extra column)
          (p.printEntity renderer entity env extra column) state
          [⟨entity, env, .publicPart, args, answer⟩] (answer.map (p.print · column)) after := by
  -- the arguments of one printer are those of any other one with its spellings
  let args := Printer.templateArgs ⟨templateLang, templateLang⟩ extra
  obtain ⟨answer, after, hcall⟩ := exists_makes_call renderer entity env .publicPart args state
  exact ⟨args, answer, after, get?_templateArgs _ extra, fun _ _ => hcall.bind_pure _⟩

end Doc

/-! ## All calls -/

/-- A declaration is rendered in public, and then in private, with the same
template, environment and arguments, unless the first render fails. The text of
an entity is rendered once, with arguments that say what the caller says and
otherwise what the template language does; the layout has no part in this. A
failure is returned as it is. -/
theorem Renderer.makes_render_and_printEntity (renderer : Renderer Env (Effect ε σ)) (env : Env)
    (extra : ExtraArgs) (state : σ) :
    (∀ (template : String) (type : T), ∃ exchanges result after,
      Makes renderer (TypeDeclaration.render (recorded renderer) template env type extra)
        (TypeDeclaration.render renderer template env type extra) state exchanges result after ∧
      RendersParts template env type extra exchanges result) ∧
    ∀ (entity : String) (templateLang : Doc.Language), ∃ args answer after,
      (∀ name, args.get? name = (extra.get? name).or (templateLang.templateValue? name)) ∧
      ∀ lang column,
        let p : Doc.Printer := ⟨lang, templateLang⟩
        Makes renderer (p.printEntity (recorded renderer) entity env extra column)
          (p.printEntity renderer entity env extra column) state
          [⟨entity, env, .publicPart, args, answer⟩] (answer.map (p.print · column)) after :=
  ⟨fun template type => TypeDeclaration.exists_rendersParts renderer template env type extra state,
    fun entity templateLang =>
      Doc.Printer.exists_makes_printEntity renderer entity env extra templateLang state⟩

end Bindery
