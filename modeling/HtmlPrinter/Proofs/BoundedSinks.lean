import HtmlPrinter.Proofs.DocumentOrder

/-!
# Bounded sinks

A tree is printed in many small writes, any of which may find the sink full. What it leaves in the
sink is still what one write of its whole rendering would leave: the beginning that fits. Trees
printed one after another therefore leave the beginning of their renderings behind each other, and
`renderEach_eq_mapIdx` gives each outcome on a sink with and without a bound.
-/

namespace HtmlPrinter

namespace Sink

def fits (sink : Sink) (s : String) : Bool := sink.room.all fun room => decide (s.length ≤ room)

/-- Stores as much of a text as there is room for. -/
def store (sink : Sink) (s : String) : Sink :=
  match sink.room with
  | none => ⟨sink.content ++ s, none⟩
  | some room => ⟨sink.content ++ String.ofList (s.toList.take room), some (room - s.length)⟩

variable (sink : Sink) (s t : String)

theorem printTo_write : (write s).printTo sink = (sink.fits s, sink.store s) := by
  obtain ⟨content, _ | room⟩ := sink
  · rfl
  · by_cases hfits : s.length ≤ room
    · have whole : s.toList.take room = s.toList := by
        rw [List.take_of_length_le]
        rwa [String.length_toList]
      simp [Printer.printTo, write, fits, store, hfits, whole]
    · have full : room - s.length = 0 := by omega
      simp [Printer.printTo, write, fits, store, hfits, full]

@[simp] theorem store_empty : sink.store "" = sink := by
  obtain ⟨content, _ | room⟩ := sink <;> simp [store]

/-- Two texts are stored like the text they make. -/
theorem store_append : sink.store (s ++ t) = (sink.store s).store t := by
  obtain ⟨content, _ | room⟩ := sink
  · simp [store, String.append_assoc]
  · have room_left : room - (s.length + t.length) = room - s.length - t.length := by omega
    simp [store, List.take_append, room_left, String.append_assoc, String.length_toList]

end Sink

namespace Config

/-- Renders trees behind each other. -/
def renderAll (cfg : Config) : List Node → String
  | [] => ""
  | node :: rest => cfg.render node ++ cfg.renderAll rest

variable (cfg : Config)

private theorem printTo_printNode (node : Node) (sink : Sink) :
    (cfg.printNode node).printTo sink =
      (sink.fits (cfg.render node), sink.store (cfg.render node)) := by
  rw [printNode_eq_write, render_eq_markup, Sink.printTo_write]

private theorem renderEach_cons (node : Node) (rest : List Node) (sink : Sink) :
    cfg.renderEach (node :: rest) sink =
      (sink.fits (cfg.render node), sink.store (cfg.render node)) ::
        cfg.renderEach rest (sink.store (cfg.render node)) := by
  rw [renderEach, List.map_cons, Printer.printEach, printTo_printNode]
  rfl

private theorem renderEach_eq_store (nodes : List Node) (sink : Sink) :
    cfg.renderEach nodes sink = nodes.mapIdx fun k node =>
      ((sink.store (cfg.renderAll (nodes.take k))).fits (cfg.render node),
        sink.store (cfg.renderAll (nodes.take (k + 1)))) := by
  -- the sink behind the first trees holds their renderings, as far as they fit
  induction nodes generalizing sink with
  | nil => rfl
  | cons node rest ih =>
      rw [renderEach_cons, ih, List.mapIdx_cons]
      simp [renderAll, Sink.store_append]

/-- Trees printed to a sink with room for `limit` characters leave the first `limit` characters of
their renderings, and each is printed without failure exactly if it is no longer than the room
that the trees in front of it leave. Without a bound nothing fails and nothing is lost. -/
theorem renderEach_eq_mapIdx (start : String) (nodes : List Node) :
    (∀ limit, cfg.renderEach nodes ⟨start, some limit⟩ = nodes.mapIdx fun k node =>
      (decide ((cfg.render node).length ≤ limit - min limit (cfg.renderAll (nodes.take k)).length),
        ⟨start ++ String.ofList ((cfg.renderAll (nodes.take (k + 1))).toList.take limit),
          some (limit - (cfg.renderAll (nodes.take (k + 1))).length)⟩)) ∧
    cfg.renderEach nodes ⟨start, none⟩ = nodes.mapIdx fun k _ =>
      (true, ⟨start ++ cfg.renderAll (nodes.take (k + 1)), none⟩) := by
  refine ⟨fun limit => ?_, ?_⟩
  · rw [renderEach_eq_store]
    congr 1
    funext k node
    have room_left : ∀ n, limit - min limit n = limit - n := by omega
    simp [Sink.fits, Sink.store, room_left]
  · rw [renderEach_eq_store]
    rfl

end Config

end HtmlPrinter
