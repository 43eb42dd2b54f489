import Hashmark.Callable.Builtin
import Hashmark.Proofs.Optimizing.Preparation

/-!
# Scopes and names that are given back

A rendering under way has one stack of scopes and one of active names, and all nodes work on them: a
pass of a loop opens a scope, and closes it when its body is done or has failed; a section is entered
and left in the same way (`Node.perform`). Nothing in this says that the stacks are what they were
afterwards, but they are: whatever the state, a node writes what `Node.render` says or fails as it
says, and gives the scopes and the active names back as it found them (`Node.performList_performs`).
So nodes can be rendered one after the other, and no variable is changed by a loop
(`Setting.perform_restores`).

What may go on for ever is to enter overrides, so it is counted how many are entered within one
another. The overrides that can still be entered are enough, and no rendering is stopped.
-/

namespace Hashmark

/-! ### A rendering under way -/

/-- What a rendering works on. -/
structure Rendering where
  scopes : Scopes
  /-- The sections that are being rendered, innermost first. -/
  active : List String
  /-- What was written so far. -/
  output : String

/-- Why a rendering does not go on. -/
inductive Halt where
  | fault (fault : CallFault)
  /-- More overrides are entered within one another than are allowed. -/
  | tooDeep

/-- A computation on a rendering; what it does before it fails stays done. -/
abbrev RenderM := ExceptT Halt (StateM Rendering)

namespace RenderM

/-- What comes of a computation, and the rendering after it. -/
def run {α : Type} (x : RenderM α) (r : Rendering) : Except Halt α × Rendering :=
  StateT.run (ExceptT.run x) r

/-- Writes a text. -/
def write (text : String) : RenderM Unit :=
  modify fun r => { r with output := r.output ++ text }

/-- The value of an expression for the variables in view. -/
def value (t : Setting) (e : Expr) : RenderM Value := do
  match e.eval t.callables (← get).scopes with
  | .ok v => pure v
  | .error fault => throw (.fault fault)

/-- A body in a scope that `enter` opens. The scope is closed in the end, also if the body fails. -/
def inScope (enter : Scopes → Scopes) (body : RenderM Unit) : RenderM Unit := do
  modify fun r => { r with scopes := enter r.scopes }
  try body finally modify fun r => { r with scopes := r.scopes.pop }

/-- The body of a section, unless the section is being rendered. The section is left in the end, also
if the body fails. -/
def inSection (name : String) (body : RenderM Unit) : RenderM Unit := do
  if name ∈ (← get).active then pure ()
  else
    modify fun r => { r with active := name :: r.active }
    try body finally modify fun r => { r with active := r.active.tail }

end RenderM

open RenderM

mutual

/-- Renders a node, with at most `depth` overrides entered within one another. -/
def Node.perform (t : Setting) (depth : Nat) (node : Node) : RenderM Unit :=
  match node with
  | .text content => write content
  | .comment _ | .connect _ => pure ()
  | .emit e => do
    let v ← value t e
    write (escape v)
  | .choose branches otherwise => Node.performChoice t depth branches otherwise
  | .forEach source keyName valueName body => do
    let v ← value t source
    let entries := v.entries
    let count := entries.length
    ((List.range count).zip entries).forM fun (index, key, item) =>
      inScope (·.enterPass keyName valueName key item index count)
        (Node.performList t depth body)
  | .block name body =>
    inSection name <|
      match overrideOf t.overrides name with
      | none => Node.performList t depth body
      | some override =>
        match depth with
        | 0 => throw .tooDeep
        | depth + 1 => Node.performList t depth override
  | .yield name default =>
    match overrideOf t.overrides name with
    | none => default.toList.forM fun text => write (escapeText text)
    | some override =>
      inSection name <|
        match depth with
        | 0 => throw .tooDeep
        | depth + 1 => Node.performList t depth override
termination_by (depth, sizeOf node)

/-- Renders several nodes. -/
def Node.performList (t : Setting) (depth : Nat) (nodes : List Node) : RenderM Unit :=
  match nodes with
  | [] => pure ()
  | node :: nodes => do
    node.perform t depth
    Node.performList t depth nodes
termination_by (depth, sizeOf nodes)

/-- Renders the first branch whose condition holds, or else the last body. -/
def Node.performChoice (t : Setting) (depth : Nat) (branches : List (Expr × List Node))
    (otherwise : Option (List Node)) : RenderM Unit :=
  match branches with
  | [] =>
    match otherwise with
    | some body => Node.performList t depth body
    | none => pure ()
  | (condition, body) :: branches => do
    let v ← value t condition
    if v.isTruthy then Node.performList t depth body
    else Node.performChoice t depth branches otherwise
termination_by (depth, sizeOf branches + sizeOf otherwise)

end

/-- Renders nodes, on any rendering under way. -/
def Setting.perform (t : Setting) (nodes : List Node) : RenderM Unit := do
  Node.performList t (enterable t.overrides (← get).active) nodes

/-! ### Running a computation -/

namespace RenderM

variable {α β : Type}

@[simp] theorem run_pure (a : α) (r : Rendering) : (pure a : RenderM α).run r = (.ok a, r) := rfl

theorem run_bind (x : RenderM α) (f : α → RenderM β) (r : Rendering) :
    (x >>= f).run r =
      match x.run r with
      | (.ok a, r') => (f a).run r'
      | (.error halt, r') => (.error halt, r') := by
  unfold run ExceptT.run StateT.run
  simp only [bind, ExceptT.bind, ExceptT.mk, StateT.bind, ExceptT.bindCont]
  cases x r with
  | mk result r' => cases result <;> rfl

theorem run_write (text : String) (r : Rendering) :
    (write text).run r = (.ok (), { r with output := r.output ++ text }) := rfl

/-- What is done in the end is done whatever comes of the body. -/
theorem run_finally (body : RenderM Unit) (f : Rendering → Rendering) (r : Rendering) :
    RenderM.run (try body finally modify f) r = ((body.run r).1, f (body.run r).2) := by
  unfold run ExceptT.run StateT.run
  simp only [tryFinally, tryFinally', ExceptT.mk, bind, Functor.map, ExceptT.map, StateT.bind]
  cases body r with
  | mk result r' => cases result <;> rfl

theorem run_inScope (enter : Scopes → Scopes) (body : RenderM Unit) (r : Rendering) :
    (inScope enter body).run r =
      let out := body.run { r with scopes := enter r.scopes }
      (out.1, { out.2 with scopes := out.2.scopes.pop }) :=
  run_finally body _ { r with scopes := enter r.scopes }

theorem run_inSection {name : String} {r : Rendering} (h : name ∉ r.active) (body : RenderM Unit) :
    (inSection name body).run r =
      let out := body.run { r with active := name :: r.active }
      (out.1, { out.2 with active := out.2.active.tail }) := by
  rw [inSection, run_bind]
  show RenderM.run (if name ∈ r.active then pure () else _) r = _
  rw [if_neg h]
  exact run_finally body _ { r with active := name :: r.active }

theorem run_inSection_active {name : String} {r : Rendering} (h : name ∈ r.active)
    (body : RenderM Unit) : (inSection name body).run r = (.ok (), r) := by
  rw [inSection, run_bind]
  show RenderM.run (if name ∈ r.active then pure () else _) r = _
  rw [if_pos h]
  rfl

/-- A value is read without a change of the rendering. -/
theorem run_value_bind (t : Setting) (e : Expr) (f : Value → RenderM α) (r : Rendering) :
    (value t e >>= f).run r =
      match e.eval t.callables r.scopes with
      | .ok v => (f v).run r
      | .error fault => (.error (.fault fault), r) := by
  have hvalue : (value t e).run r =
      match e.eval t.callables r.scopes with
      | .ok v => (.ok v, r)
      | .error fault => (.error (.fault fault), r) := by
    rw [value, run_bind]
    show RenderM.run (match e.eval t.callables r.scopes with
      | .ok v => pure v
      | .error fault => throw (.fault fault)) r = _
    cases e.eval t.callables r.scopes <;> rfl
  rw [run_bind, hvalue]
  cases e.eval t.callables r.scopes <;> rfl

end RenderM

theorem Setting.run_perform (t : Setting) (nodes : List Node) (r : Rendering) :
    (t.perform nodes).run r =
      (Node.performList t (enterable t.overrides r.active) nodes).run r := by
  rw [Setting.perform, run_bind]
  rfl

/-- Nodes one after the other. -/
theorem run_performList_append (t : Setting) (depth : Nat) (nodes more : List Node)
    (r : Rendering) :
    (Node.performList t depth (nodes ++ more)).run r =
      (do Node.performList t depth nodes; Node.performList t depth more : RenderM Unit).run r := by
  induction nodes generalizing r with
  | nil => rw [List.nil_append, Node.performList, run_bind, run_pure]
  | cons node nodes ih =>
    rw [List.cons_append, Node.performList, Node.performList, bind_assoc, run_bind, run_bind]
    simp only [ih]

/-! ### What a computation does -/

/-- Whether a computation that begins with some scopes and active names has the outcome `result`: it
writes the pieces, or it fails in that way and may have written something. In both cases the scopes
and the names are given back. -/
def Performs (active : List String) (s : Scopes) (x : RenderM Unit)
    (result : Except CallFault (List String)) : Prop :=
  ∀ output : String,
    match result with
    | .ok pieces => x.run ⟨s, active, output⟩ = (.ok (), ⟨s, active, output ++ String.join pieces⟩)
    | .error fault => ∃ more : String,
        x.run ⟨s, active, output⟩ = (.error (.fault fault), ⟨s, active, output ++ more⟩)

section Performs

variable {active : List String} {s : Scopes} {x y : RenderM Unit}
  {result rest : Except CallFault (List String)}

/-- In both cases the scopes and the active names are those of the beginning. -/
theorem Performs.restores (h : Performs active s x result) (output : String) :
    (x.run ⟨s, active, output⟩).2.scopes = s ∧ (x.run ⟨s, active, output⟩).2.active = active := by
  cases result with
  | error fault =>
    obtain ⟨more, hmore⟩ := h output
    rw [hmore]
    exact ⟨rfl, rfl⟩
  | ok pieces =>
    have hrun : x.run _ = _ := h output
    rw [hrun]
    exact ⟨rfl, rfl⟩

theorem performs_pure : Performs active s (pure ()) (.ok []) := by
  intro output
  show RenderM.run (pure ()) _ = (.ok (), ⟨s, active, output ++ String.join []⟩)
  rw [run_pure, String.join_nil, String.append_empty]

theorem performs_write (text : String) : Performs active s (write text) (.ok [text]) := by
  intro output
  show (write text).run _ = (.ok (), ⟨s, active, output ++ String.join [text]⟩)
  rw [run_write, String.join_cons, String.join_nil, String.append_empty]

/-- One computation after the other: the second one begins with what the first one gave back. -/
theorem Performs.seq (hx : Performs active s x result) (hy : Performs active s y rest) :
    Performs active s (do x; y) (do let p ← result; let q ← rest; pure (p ++ q)) := by
  intro output
  cases result with
  | error fault =>
    obtain ⟨more, hmore⟩ := hx output
    refine ⟨more, ?_⟩
    rw [run_bind, hmore]
  | ok p =>
    have hfirst : x.run _ = _ := hx output
    cases rest with
    | error fault =>
      obtain ⟨more, hmore⟩ := hy (output ++ String.join p)
      refine ⟨String.join p ++ more, ?_⟩
      rw [run_bind, hfirst, ← String.append_assoc]
      exact hmore
    | ok q =>
      have hsecond : y.run _ = _ := hy (output ++ String.join p)
      show (x >>= fun _ => y).run _ = (.ok (), ⟨s, active, output ++ String.join (p ++ q)⟩)
      rw [run_bind, hfirst, String.join_append, ← String.append_assoc]
      exact hsecond

/-- A value, and then a computation that depends on it. -/
theorem Performs.value {t : Setting} {e : Expr} {f : Value → RenderM Unit}
    {g : Value → Except CallFault (List String)}
    (h : ∀ v, Performs active s (f v) (g v)) :
    Performs active s (value t e >>= f) (e.eval t.callables s >>= g) := by
  intro output
  have hrun := run_value_bind t e f ⟨s, active, output⟩
  cases heval : e.eval t.callables s with
  | error fault =>
    refine ⟨"", ?_⟩
    rw [hrun]
    simp only [heval, String.append_empty]
  | ok v =>
    have hv := h v output
    simp only [heval] at hrun
    show match g v with | .ok pieces => _ | .error fault => _
    rw [hrun]
    exact hv

/-- A computation that does another one elsewhere and goes back in the end. -/
theorem Performs.around {active' : List String} {s' : Scopes} (back : Rendering → Rendering)
    (h : Performs active' s' x result)
    (hrun : ∀ output, y.run ⟨s, active, output⟩ =
      let out := x.run ⟨s', active', output⟩
      (out.1, back out.2))
    (hback : ∀ output, back ⟨s', active', output⟩ = ⟨s, active, output⟩) :
    Performs active s y result := by
  intro output
  rw [hrun]
  cases result with
  | error fault =>
    obtain ⟨more, hmore⟩ := h output
    refine ⟨more, ?_⟩
    simp only [hmore, hback]
  | ok pieces =>
    have hbody : x.run _ = _ := h output
    simp only [hbody, hback]

/-- A scope that is closed leaves those that were open. -/
theorem Performs.inScope {enter : Scopes → Scopes} (hpop : (enter s).pop = s)
    (h : Performs active (enter s) x result) : Performs active s (inScope enter x) result :=
  h.around (fun r => { r with scopes := r.scopes.pop })
    (fun output => run_inScope enter x ⟨s, active, output⟩) fun output => by rw [hpop]

/-- A section that is left leaves the names around it. -/
theorem Performs.inSection {name : String} (hname : name ∉ active)
    (h : Performs (name :: active) s x result) : Performs active s (inSection name x) result :=
  h.around (fun r => { r with active := r.active.tail })
    (fun output => @run_inSection name ⟨s, active, output⟩ hname x) fun _ => rfl

theorem performs_inSection_active {name : String} (hname : name ∈ active) :
    Performs active s (inSection name x) (.ok []) := by
  intro output
  show (inSection name x).run _ = (.ok (), ⟨s, active, output ++ String.join []⟩)
  rw [run_inSection_active hname, String.join_nil, String.append_empty]

/-- The passes of a loop, one after the other. -/
theorem Performs.passes {α : Type} {f : α → RenderM Unit}
    {g : α → Except CallFault (List String)} {items : List α}
    (h : ∀ item ∈ items, Performs active s (f item) (g item)) :
    Performs active s (items.forM f) (do let ps ← items.mapM g; pure ps.flatten) := by
  induction items with
  | nil => exact performs_pure
  | cons item items ih =>
    rw [Simulates.passes_cons]
    exact (h item List.mem_cons_self).seq (ih fun i hi => h i (List.mem_cons_of_mem _ hi))

end Performs

/-- A pass of a loop opens one scope, and sets variables in this one only. -/
theorem Scopes.pop_enterPass (s : Scopes) (keyName : Option String) (valueName : String)
    (key value : Value) (index count : Nat) :
    (s.enterPass keyName valueName key value index count).pop = s := by
  cases keyName <;> rfl

/-! ### Nodes -/

section Sections

variable {t : Setting} {active : List String} {s : Scopes} {name : String} {override : List Node}
  {result : Except CallFault (List String)} {depth : Nat}

/-- An override is entered if there is room for it, and there is less room in it. -/
theorem performs_override (ho : overrideOf t.overrides name = some override)
    (hname : name ∉ active)
    (h : ∀ less, enterable t.overrides (name :: active) ≤ less →
      Performs (name :: active) s (Node.performList t less override) result) :
    enterable t.overrides active ≤ depth →
      Performs active s
        (inSection name <|
          match depth with
          | 0 => throw .tooDeep
          | depth + 1 => Node.performList t depth override) result := by
  intro hroom
  have hless := enterable_cons_lt ho hname
  obtain ⟨less, rfl⟩ := Nat.exists_eq_succ_of_ne_zero (n := depth) (by omega)
  exact (h less (by omega)).inSection hname

end Sections

/-- **A run.** With room for the overrides that can be entered, nodes write what rendering them
gives, or fail as it fails, and give the scopes and the active names back. -/
theorem Node.performList_performs (t : Setting) (active : List String) (s : Scopes)
    (nodes : List Node) (depth : Nat) (hroom : enterable t.overrides active ≤ depth) :
    Performs active s (Node.performList t depth nodes) (Node.renderList t active s nodes) := by
  refine (Node.render.mutual_induct t
    (fun active s node => ∀ depth, enterable t.overrides active ≤ depth →
      Performs active s (Node.perform t depth node) (Node.render t active s node))
    (fun active s nodes => ∀ depth, enterable t.overrides active ≤ depth →
      Performs active s (Node.performList t depth nodes) (Node.renderList t active s nodes))
    (fun active s branches otherwise => ∀ depth, enterable t.overrides active ≤ depth →
      Performs active s (Node.performChoice t depth branches otherwise)
        (Node.renderChoice t active s branches otherwise))
    ?text ?comment ?connect ?emit ?choose ?forEach ?block_active ?block_override ?block_own
    ?yield_active ?yield_override ?yield_default ?nil ?cons ?otherwise ?no_branch ?branch).2.1
    active s nodes depth hroom
  case text =>
    intro active s content depth _
    rw [Node.perform, Node.render]
    exact performs_write content
  case comment | connect =>
    intro active s content depth _
    rw [Node.perform, Node.render]
    exact performs_pure
  case emit =>
    intro active s e depth _
    rw [Node.perform, Node.render]
    exact Performs.value fun v => performs_write (escape v)
  case choose =>
    intro active s branches otherwise ih depth hroom
    rw [Node.perform, Node.render]
    exact ih depth hroom
  case forEach =>
    intro active s source key value body ih depth hroom
    rw [Node.perform, Node.render]
    refine Performs.value fun v => ?_
    rw [Scopes.passes, List.mapM_map]
    refine Performs.passes fun entry _ => ?_
    exact (ih _ depth hroom).inScope (s.pop_enterPass key value entry.2.1 entry.2.2 entry.1 _)
  case block_active =>
    intro active s name body hname depth _
    rw [Node.perform, render_block_active hname]
    exact performs_inSection_active hname
  case block_override =>
    intro active s name body hname override ho ih depth hroom
    rw [Node.perform, render_block_override hname ho, ho]
    exact performs_override ho hname ih hroom
  case block_own =>
    intro active s name body hname ho ih depth hroom
    rw [Node.perform, render_block_own hname ho, ho]
    have hless := enterable_cons_le t.overrides name active
    exact (ih depth (by omega)).inSection hname
  case yield_active =>
    intro active s name default override ho hname depth _
    rw [Node.perform, render_yield_active hname ho, ho]
    exact performs_inSection_active hname
  case yield_override =>
    intro active s name default override ho hname ih depth hroom
    rw [Node.perform, render_yield_override hname ho, ho]
    exact performs_override ho hname ih hroom
  case yield_default =>
    intro active s name default ho depth _
    rw [Node.perform, render_yield_default ho, ho]
    cases default with
    | none => exact performs_pure
    | some text => exact performs_write (escapeText text)
  case nil =>
    intro active s depth _
    rw [Node.performList, Node.renderList]
    exact performs_pure
  case cons =>
    intro active s node nodes ih ihs depth hroom
    rw [Node.performList, Node.renderList]
    exact (ih depth hroom).seq (ihs depth hroom)
  case otherwise =>
    intro active s body ih depth hroom
    rw [Node.performChoice, Node.renderChoice]
    exact ih depth hroom
  case no_branch =>
    intro active s depth _
    rw [Node.performChoice, Node.renderChoice]
    exact performs_pure
  case branch =>
    intro active s otherwise condition body branches ih ihs depth hroom
    rw [Node.performChoice, Node.renderChoice]
    refine Performs.value fun v => ?_
    split
    · exact ih depth hroom
    · exact ihs depth hroom

theorem Setting.perform_performs (t : Setting) (nodes : List Node) (active : List String)
    (s : Scopes) : Performs active s (t.perform nodes) (Node.renderList t active s nodes) := by
  intro output
  rw [Setting.run_perform]
  exact Node.performList_performs t active s nodes _ (Nat.le_refl _) output

/-- Nodes and more nodes are rendered one after the other: what the first ones give back has room
for the others. -/
theorem Setting.run_perform_append (t : Setting) (nodes more : List Node) (r : Rendering) :
    (t.perform (nodes ++ more)).run r =
      (do t.perform nodes; t.perform more : RenderM Unit).run r := by
  obtain ⟨-, hactive⟩ := (t.perform_performs nodes r.active r.scopes).restores r.output
  rw [Setting.run_perform] at hactive
  rw [Setting.run_perform, run_performList_append, run_bind, run_bind, Setting.run_perform]
  split
  · next r' hrun =>
    rw [hrun] at hactive
    rw [Setting.run_perform, hactive]
  · rfl

/-- **Nodes give back what they were given.** Whatever the overrides, the callables, the variables
and the active names are, and whether the nodes are rendered to the end or fail somewhere: afterwards
the scopes and the active names are what they were, and the outcome is that of `Node.renderList`. So
nodes and more nodes are rendered one after the other, both with these scopes and names, and after a
loop every variable has the value that it had. -/
theorem Setting.perform_restores (t : Setting) (nodes : List Node) (r : Rendering) :
    (((t.perform nodes).run r).2.scopes = r.scopes ∧
      ((t.perform nodes).run r).2.active = r.active) ∧
    (match Node.renderList t r.active r.scopes nodes with
      | .ok pieces =>
        (t.perform nodes).run r = (.ok (), { r with output := r.output ++ String.join pieces })
      | .error fault => ∃ written, (t.perform nodes).run r =
          (.error (.fault fault), { r with output := r.output ++ written })) ∧
    (∀ more,
      (t.perform (nodes ++ more)).run r =
          (do t.perform nodes; t.perform more : RenderM Unit).run r ∧
        Node.renderList t r.active r.scopes (nodes ++ more) =
          (do
            let first ← Node.renderList t r.active r.scopes nodes
            let rest ← Node.renderList t r.active r.scopes more
            pure (first ++ rest))) ∧
    ∀ source keyName valueName body name,
      ((t.perform [.forEach source keyName valueName body]).run r).2.scopes.get? name =
        r.scopes.get? name := by
  have hperforms (nodes : List Node) := t.perform_performs nodes r.active r.scopes
  refine ⟨(hperforms nodes).restores r.output, hperforms nodes r.output, fun more => ⟨?_, ?_⟩, ?_⟩
  · exact t.run_perform_append nodes more r
  · exact renderList_append t r.active r.scopes nodes more
  · intro source keyName valueName body name
    rw [((hperforms [.forEach source keyName valueName body]).restores r.output).1]

/-- The variable of a loop hides one around it, and this one is in view again after the loop. -/
example :
    let nodes : List Node :=
      [.forEach (.list [.lit (.int 1), .lit (.int 2)]) none "x" [.emit (.var "x")], .emit (.var "x")]
    let r : Rendering := ⟨⟨[("x", .str "outer")], []⟩, [], ""⟩
    ((Setting.mk Callables.builtin []).perform nodes).run r =
      (.ok (), { r with output := "12outer" }) := by
  cbv

end Hashmark
