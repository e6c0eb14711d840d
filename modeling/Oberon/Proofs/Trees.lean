import Mathlib.Data.List.Basic
import Oberon.Syntax

/-!
# Induction on trees

Expressions, statements and procedures hold lists of their own kind. The principles below state
the induction once, with a hypothesis for every member of such a list, so that facts about
lists are proved by plain induction on the list.
-/

namespace Oberon

/-- A fact about expressions holds of all of them if every form passes it on from its parts. -/
theorem Expr.induction {P : Expr → Prop}
    (literal : ∀ value, P (.literal value))
    (designator : ∀ name selectors, (∀ selector ∈ selectors, ∀ e ∈ selector, P e) →
      P (.designator name selectors))
    (call : ∀ callee arguments, (∀ e ∈ arguments, P e) → P (.call callee arguments))
    (not : ∀ operand, P operand → P (.not operand))
    (negate : ∀ operand, P operand → P (.negate operand))
    (binary : ∀ lhs op rhs, P lhs → P rhs → P (.binary lhs op rhs))
    (relation : ∀ lhs op rhs, P lhs → P rhs → P (.relation lhs op rhs)) (e : Expr) : P e := by
  refine @Expr.rec P (fun selectors => ∀ selector ∈ selectors, ∀ e ∈ selector, P e)
    (fun es => ∀ e ∈ es, P e) literal designator call not negate binary relation ?_ ?_ ?_ ?_ e
  · exact List.forall_mem_nil _
  · intro head tail hhead htail
    exact List.forall_mem_cons.mpr ⟨hhead, htail⟩
  · exact List.forall_mem_nil _
  · intro head tail hhead htail
    exact List.forall_mem_cons.mpr ⟨hhead, htail⟩

/-- A fact about statements holds of all of them if every form passes it on from the statements
in its bodies. -/
theorem Statement.induction {P : Statement → Prop}
    (assign : ∀ target value, P (.assign target value))
    (call : ∀ procedure arguments, P (.call procedure arguments))
    (ifThen : ∀ branches otherwise, (∀ branch ∈ branches, ∀ s ∈ branch.2, P s) →
      (∀ body ∈ otherwise, ∀ s ∈ body, P s) → P (.ifThen branches otherwise))
    (whileDo : ∀ condition body, (∀ s ∈ body, P s) → P (.whileDo condition body))
    (repeatUntil : ∀ body condition, (∀ s ∈ body, P s) → P (.repeatUntil body condition))
    (forDo : ∀ counter start limit direction body, (∀ s ∈ body, P s) →
      P (.forDo counter start limit direction body))
    (caseOf : ∀ selector branches otherwise, (∀ branch ∈ branches, ∀ s ∈ branch.2, P s) →
      (∀ body ∈ otherwise, ∀ s ∈ body, P s) → P (.caseOf selector branches otherwise))
    (breakLoop : P .breakLoop) (continueLoop : P .continueLoop)
    (returnWith : ∀ value, P (.returnWith value)) (s : Statement) : P s := by
  -- one motive for each type of the nested recursor: a list or pair has the fact if its parts do
  refine @Statement.rec P (fun branches => ∀ branch ∈ branches, ∀ s ∈ branch.2, P s)
    (fun otherwise => ∀ body ∈ otherwise, ∀ s ∈ body, P s) (fun body => ∀ s ∈ body, P s)
    (fun branches => ∀ branch ∈ branches, ∀ s ∈ branch.2, P s)
    (fun branch => ∀ s ∈ branch.2, P s) (fun branch => ∀ s ∈ branch.2, P s)
    assign call ifThen whileDo repeatUntil forDo caseOf breakLoop continueLoop returnWith
    ?_ ?_ ?_ ?_ ?_ ?_ ?_ ?_ ?_ ?_ s
  · exact List.forall_mem_nil _
  · intro head tail hhead htail
    exact List.forall_mem_cons.mpr ⟨hhead, htail⟩
  · intro body h
    exact absurd h (Option.not_mem_none body)
  · intro body hbody other h
    obtain rfl := Option.mem_some.mp h
    exact hbody
  · exact List.forall_mem_nil _
  · intro head tail hhead htail
    exact List.forall_mem_cons.mpr ⟨hhead, htail⟩
  · exact List.forall_mem_nil _
  · intro head tail hhead htail
    exact List.forall_mem_cons.mpr ⟨hhead, htail⟩
  · intro condition body hbody
    exact hbody
  · intro labels body hbody
    exact hbody

/-- A fact about procedures holds of all of them if it passes from the nested procedures to the
one that declares them. -/
theorem Procedure.induction {P : Procedure → Prop}
    (mk : ∀ name parameters result declarations body,
      (∀ p ∈ declarations.procedures, P p) → P (.mk name parameters result declarations body))
    (p : Procedure) : P p := by
  refine @Procedure.rec P (fun d => ∀ p ∈ d.procedures, P p) (fun ps => ∀ p ∈ ps, P p) mk
    (fun _ _ _ _ h => h) ?_ ?_ p
  · exact List.forall_mem_nil _
  · intro head tail hhead htail
    exact List.forall_mem_cons.mpr ⟨hhead, htail⟩

end Oberon
