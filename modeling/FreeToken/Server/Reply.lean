import FreeToken.Lib.BlockStream
import FreeToken.Server.GenerationSpec

/-!
# What a reply says

The parts of a reply, read off the generation events: neighbouring text is one part, a call is a part
with its arguments.  The three wire protocols are compared with this.
-/

set_option autoImplicit false

namespace FreeToken

namespace Generation

attribute [local instance] Text.lawfulBEq

/-- What a protocol adapter gets: an event, or the sentinel of a silent interval. -/
inductive Signal
  | keepalive
  | event (ev : GenEvent)

/-- `with_keepalive`: so many silent intervals before each event, and before an end that is not the
return right behind the last event. -/
def withKeepalive (silent : Nat → Nat) (g : Generator GenEvent Halt Unit) :
    Generator Signal Halt Unit where
  events := (g.events.zipIdx.flatMap fun p =>
      List.replicate (silent p.2) .keepalive ++ [.event p.1]) ++
    List.replicate (if g.result.isOk then 0 else silent g.events.length) .keepalive
  result := g.result

def Signal.event? : Signal → Option GenEvent
  | keepalive => none
  | event ev => some ev

theorem filterMap_signals (silent : Nat → Nat) (es : List GenEvent) (k : Nat) :
    ((es.zipIdx k).flatMap fun p =>
      List.replicate (silent p.2) .keepalive ++ [Signal.event p.1]).filterMap Signal.event? = es := by
  induction es generalizing k with
  | nil => rfl
  | cons ev es ih =>
      rw [List.zipIdx_cons, List.flatMap_cons, List.filterMap_append, List.filterMap_append,
        List.filterMap_replicate_of_none rfl, ih (k + 1)]
      rfl

theorem withKeepalive_events (silent : Nat → Nat) (g : Generator GenEvent Halt Unit) :
    (withKeepalive silent g).events.filterMap Signal.event? = g.events := by
  rw [withKeepalive, List.filterMap_append, filterMap_signals,
    List.filterMap_replicate_of_none rfl, List.append_nil]

/-- The last event of a generator that returns is the last signal. -/
theorem withKeepalive_last (silent : Nat → Nat) {g : Generator GenEvent Halt Unit}
    (hok : g.result = .ok ()) {body : List GenEvent} {ev : GenEvent} (h : g.events = body ++ [ev]) :
    ∃ sigs, (withKeepalive silent g).events = sigs ++ [.event ev] ∧
      sigs.filterMap Signal.event? = body := by
  refine ⟨(body.zipIdx.flatMap fun p =>
    List.replicate (silent p.2) .keepalive ++ [Signal.event p.1]) ++
      List.replicate (silent body.length) .keepalive, ?_, ?_⟩
  · have hreturns : g.result.isOk = true := by rw [hok]; rfl
    rw [withKeepalive, h, if_pos hreturns, List.zipIdx_append, List.flatMap_append,
      List.replicate_zero, List.append_nil, List.append_assoc]
    simp
  · rw [List.filterMap_append, filterMap_signals, List.filterMap_replicate_of_none rfl,
      List.append_nil]

/-! ## The parts of a reply -/

inductive Part
  | reasoning (text : Text)
  | content (text : Text)
  | call (name : Option Text) (args : Text)
  deriving DecidableEq, Repr

inductive PartKind
  | reasoning
  | content
  | call
  deriving DecidableEq, Repr

def Part.kind : Part → PartKind
  | reasoning _ => .reasoning
  | content _ => .content
  | call _ _ => .call

/-- Put a part behind the others; text joins text of its kind. -/
def join (parts : List Part) (p : Part) : List Part :=
  match p, parts.getLast? with
  | .reasoning text, some (.reasoning before) => parts.dropLast ++ [.reasoning (before ++ text)]
  | .content text, some (.content before) => parts.dropLast ++ [.content (before ++ text)]
  | p, _ => parts ++ [p]

theorem join_call (ps : List Part) (name : Option Text) (args : Text) :
    join ps (.call name args) = ps ++ [.call name args] := by
  unfold join
  cases ps.getLast? <;> rfl

theorem join_reasoning (ps : List Part) (before text : Text) :
    join (ps ++ [.reasoning before]) (.reasoning text) = ps ++ [.reasoning (before ++ text)] := by
  simp [join]

theorem join_content (ps : List Part) (before text : Text) :
    join (ps ++ [.content before]) (.content text) = ps ++ [.content (before ++ text)] := by
  simp [join]

/-- Behind another kind a part stands alone. -/
theorem join_other {ps : List Part} {p : Part} (h : ∀ b, ps.getLast? = some b → b.kind ≠ p.kind) :
    join ps p = ps ++ [p] := by
  unfold join
  cases hlast : ps.getLast? with
  | none => cases p <;> rfl
  | some b =>
      have hne := h b hlast
      cases p <;> cases b <;> first | rfl | exact absurd rfl hne

theorem foldl_join_calls (ps : List Part) {A : Type} (name : A → Option Text) (args : A → Text)
    (cs : List A) : (cs.map fun c => Part.call (name c) (args c)).foldl join ps =
      ps ++ cs.map fun c => .call (name c) (args c) := by
  induction cs generalizing ps with
  | nil => rw [List.map_nil, List.foldl_nil, List.append_nil]
  | cons c cs ih => rw [List.map_cons, List.foldl_cons, join_call, ih, List.append_assoc, List.singleton_append]

/-- What was passed on of the arguments, and what is still to be sent of the final ones. -/
def topUp (sent final : Text) : Text := if sent <+: final then final else sent

/-- How a protocol passes calls on: the name it gives, whether it passes on fragments of a call that
is prefix stable or not, and the arguments of a call that is closed, of what was passed on and the
final ones. -/
structure Delivery where
  naming : Option Text → Option Text
  forwards : Bool → Bool
  closing : Text → Text → Text

/-- Where a reader is within a call: outside, inside, or in reasoning that came while it was open. -/
inductive Within
  | outside
  | inside (name : Option Text) (sent : Text) (stable : Bool)
  | aside

/-- The part of a call that is not closed. -/
def Within.parts : Within → List Part
  | inside name sent _ => [.call name sent]
  | _ => []

@[simp] theorem Within.parts_outside : Within.outside.parts = [] := rfl

@[simp] theorem Within.parts_aside : Within.aside.parts = [] := rfl

@[simp] theorem Within.parts_inside (name : Option Text) (sent : Text) (stable : Bool) :
    (Within.inside name sent stable).parts = [.call name sent] := rfl

/-- The parts an event adds, and where the reader is then.  A call that reasoning interrupts is
delivered as far as it came, and again when it is closed. -/
def adds (dv : Delivery) (w : Within) : GenEvent → Within × List Part
  | .reasoningDelta text =>
      if text = [] then (w, [])
      else
        match w with
        | .inside name sent _ => (.aside, [.call name sent, .reasoning text])
        | w => (w, [.reasoning text])
  | .contentDelta text => if text = [] then (w, []) else (.outside, w.parts ++ [.content text])
  | .toolCallStart _ name stable => (.inside (dv.naming name) [] stable, w.parts)
  | .toolCallArgsDelta _ fragment =>
      match w with
      | .inside name sent stable =>
          (.inside name (if dv.forwards stable then sent ++ fragment else sent) stable, [])
      | w => (w, [])
  | .toolCallsDelta cs =>
      match w with
      | .inside name sent _ => (.outside, cs.map fun c => .call name (dv.closing sent c.parameters))
      | _ => (.outside, cs.map fun c => .call (dv.naming c.name) c.parameters)
  | .genDone _ => (.outside, w.parts)

section Adds

variable {dv : Delivery} {w : Within} {text : Text}

theorem adds_reasoning (hw : w.parts = []) (hne : text ≠ []) :
    adds dv w (.reasoningDelta text) = (w, [.reasoning text]) := by
  cases w with
  | outside => exact if_neg hne
  | aside => exact if_neg hne
  | inside name sent stable => cases hw

theorem adds_interrupted (name : Option Text) (sent : Text) (stable : Bool) (hne : text ≠ []) :
    adds dv (.inside name sent stable) (.reasoningDelta text) =
      (.aside, [.call name sent, .reasoning text]) := if_neg hne

theorem adds_content (hne : text ≠ []) :
    adds dv w (.contentDelta text) = (.outside, w.parts ++ [.content text]) := if_neg hne

theorem adds_args_aside (i : Int) (fragment : Text) :
    adds dv .aside (.toolCallArgsDelta i fragment) = (.aside, []) := rfl

theorem adds_args_inside (name : Option Text) (sent : Text) (stable : Bool) (i : Int)
    (fragment : Text) : adds dv (.inside name sent stable) (.toolCallArgsDelta i fragment) =
      (.inside name (if dv.forwards stable then sent ++ fragment else sent) stable, []) := rfl

theorem adds_calls (hw : w.parts = []) (cs : List CallItem) : adds dv w (.toolCallsDelta cs) =
    (.outside, cs.map fun c => .call (dv.naming c.name) c.parameters) := by
  cases w with
  | outside => rfl
  | aside => rfl
  | inside name sent stable => cases hw

end Adds

/-- The parts that events say, the last call as far as it came. -/
def partsOf (dv : Delivery) (es : List GenEvent) : List Part :=
  (Generator.inOrder (adds dv) .outside es).2 ++ (Generator.inOrder (adds dv) .outside es).1.parts

/-- The reply of the events. -/
def replyOf (dv : Delivery) (es : List GenEvent) : List Part :=
  (partsOf dv es).foldl join []

theorem foldl_join_within (ps : List Part) (w : Within) : w.parts.foldl join ps = ps ++ w.parts := by
  cases w with
  | outside => exact (List.append_nil ps).symm
  | aside => exact (List.append_nil ps).symm
  | inside name sent stable => exact join_call ps name sent

/-- The reply, of what was said up to its last call. -/
theorem replyOf_eq (dv : Delivery) (es : List GenEvent) :
    replyOf dv es = (Generator.inOrder (adds dv) .outside es).2.foldl join [] ++
      (Generator.inOrder (adds dv) .outside es).1.parts := by
  rw [replyOf, partsOf, List.foldl_append, foldl_join_within]

/-- The end closes the last call. -/
theorem replyOf_done (dv : Delivery) (body : List GenEvent) (d : GenDone) :
    replyOf dv (body ++ [.genDone d]) = replyOf dv body := by
  rw [replyOf, partsOf, Generator.inOrder_append]
  simp only [Generator.inOrder, adds, Within.parts_outside, List.append_nil]
  rfl

end Generation

end FreeToken
