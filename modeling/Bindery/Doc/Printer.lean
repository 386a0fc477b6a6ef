import Bindery.Doc.Layout
import Bindery.Render

/-!
# Documentation printers

A printer lays out the text that a template gives for an entity. The language
of the layout and the language whose spellings the template sees are separate
choices: C entities documented inside Ada sources keep the C spellings.
-/

namespace Bindery.Doc

open Bindery.Unicode

structure Printer where
  lang : Language
  templateLang : Language
deriving DecidableEq, Repr

namespace Printer

/-- Layout and spellings of one language. -/
def ofLanguage (lang : Language) : Printer := ⟨lang, lang⟩

/-- Ada layout with the spellings of C. -/
def adaC : Printer := ⟨.ada, .c⟩

/-- Lay out a text at `column`. A blank text gives nothing at all. -/
def print (p : Printer) (text : String) (column : Nat) : String :=
  if isBlank text.toList then "" else p.lang.format text column

/-- Arguments of a documentation template: the variables of the template
language, where `extra` does not say otherwise. -/
def templateArgs (p : Printer) (extra : ExtraArgs) : ExtraArgs :=
  (NameMap.ofList p.templateLang.templateVars).insertMany extra.entries

/-- Print what a renderer makes of the template `entity`. Documentation has
no private part, so there is a single render, and it is public. -/
def printEntity {Env : Type} {m : Type → Type} [Monad m] (p : Printer)
    (render : Renderer Env m) (entity : String) (env : Env) (extra : ExtraArgs)
    (column : Nat) : m String := do
  let text ← render entity env .publicPart (p.templateArgs extra)
  return p.print text column

end Printer

end Bindery.Doc
