import Excerpt.Fragment
import Excerpt.Options

/-!
Renderers: how a fragment is written into a document.
-/

namespace Excerpt

/-- The line that opens or closes a code block begins with this. -/
def fence : Text := "```".toList

/-- How a fragment is written: between fences, or as it is. -/
inductive Renderer where
  | codeBlock
  | raw
  deriving DecidableEq, Repr

namespace Renderer

/-- The name by which a directive chooses the renderer. -/
def name : Renderer → Text
  | codeBlock => "code-block".toList
  | raw => "raw".toList

/-- The renderer of the given name, in any case. -/
def ofName? (s : Text) : Option Renderer :=
  [codeBlock, raw].find? fun r => Text.eqIgnoreCase r.name s

/-- The fragment as it stands in a document, its last line ended. A code block names the language
that the option `lang` gives, or else the kind of the fragment. -/
def render (renderer : Renderer) (fragment : Fragment) (options : Options) : Text :=
  match renderer with
  | codeBlock =>
    fence ++ options.getText "lang".toList fragment.kind ++ ['\n'] ++ fragment.content ++
      ['\n'] ++ fence ++ ['\n']
  | raw => fragment.content ++ ['\n']

end Renderer

end Excerpt
