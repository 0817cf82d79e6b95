import HtmlPrinter.Config.Options
import HtmlPrinter.Walk

/-!
# Rendering

The ways to render a tree: to a sink, to a string with a configuration, and to a string with
options that are checked first. An element can be rendered on its own, outside any tree.
-/

namespace HtmlPrinter

namespace Config

def printNode (cfg : Config) (node : Node) : Printer Unit :=
  cfg.run [.visit node (.alone node) .html]

/-- Prints an element outside any tree to a sink. It is opened before the walk starts, which has
only what is behind its start tag left to do. -/
def printElement (cfg : Config) (e : Element) : Printer Unit := do
  let opening := Task.visit (.element e) .detached .html
  cfg.printPieces (opening.pieces cfg)
  cfg.run (opening.next cfg)

def render (cfg : Config) (node : Node) : String := (cfg.printNode node).toText

def renderElement (cfg : Config) (e : Element) : String := (cfg.printElement e).toText

/-- Renders trees one after another to the same sink, going on after a failure; gives each
outcome with the sink as it is then. -/
def renderEach (cfg : Config) (nodes : List Node) (sink : Sink) : List (Bool × Sink) :=
  Printer.printEach (nodes.map cfg.printNode) sink

end Config

def Options.render (o : Options) (node : Node) : Except OptionsError String := do
  let cfg ← o.build
  return cfg.render node

end HtmlPrinter
