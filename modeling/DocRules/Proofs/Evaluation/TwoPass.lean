import DocRules.Proofs.Decimal
import DocRules.Proofs.Evaluation.Trace
import DocRules.Proofs.Text.Cut

/-! # Two passes are one direct evaluation

The two passes over a rule meet only in the keys of a context. The first pass records answers of the
document, and whatever it recorded under a key is the answer to every question with that key: a leaf
key is the path itself, and the key of a loop can be taken apart again, because the index of a loop
has no equals sign and its start, being a number, has no colon (`LoopHeader.key_inj`). So no two loops
clash, the context agrees with the document on every question of the rule (`Context.agrees_record`), and
evaluation from the one is evaluation from the other (`Rule.evaluate_of_bind`, `Engine.run_empty`).
-/

namespace DocRules

def Source.Agrees (source : Source) : Visit → Prop
  | .field path value => source.read path = .ok value
  | .loop header path start stop => source.bounds header path = .ok (start, stop)

namespace Trace

theorem mem_andThen {first next : Trace} {visit : Visit} (member : visit ∈ (first.andThen next).visits) :
    visit ∈ first.visits ∨ visit ∈ next.visits := by
  simp only [andThen] at member
  split at member
  · exact List.mem_append.mp member
  · exact .inl member

theorem mem_sequence {traces : List Trace} {visit : Visit} (member : visit ∈ (sequence traces).visits) :
    ∃ trace ∈ traces, visit ∈ trace.visits := by
  induction traces with
  | nil => simp [sequence, nothing] at member
  | cons trace traces ih =>
    rcases mem_andThen member with here | later
    · exact ⟨trace, List.mem_cons_self, here⟩
    · obtain ⟨other, among, there⟩ := ih later
      exact ⟨other, List.mem_cons_of_mem _ among, there⟩

/-- A sequence that ends well has all answers of its two parts, which end well. -/
theorem andThen_ok {first next : Trace} (ended : (first.andThen next).outcome = .ok ()) :
    first.outcome = .ok () ∧ next.outcome = .ok () ∧
      (first.andThen next).visits = first.visits ++ next.visits := by
  simp only [andThen] at ended ⊢
  split at ended <;> rename_i before
  · exact ⟨before, ended, rfl⟩
  · rw [before] at ended
    contradiction

theorem sequence_ok {traces : List Trace} (ended : (sequence traces).outcome = .ok ()) {trace : Trace}
    (among : trace ∈ traces) :
    trace.outcome = .ok () ∧ trace.visits ⊆ (sequence traces).visits := by
  induction traces with
  | nil => simp at among
  | cons head traces ih =>
    obtain ⟨first, next, visits⟩ := andThen_ok ended
    simp only [sequence, List.foldr_cons] at ih visits ⊢
    rw [visits]
    rcases List.mem_cons.mp among with rfl | among
    · exact ⟨first, List.subset_append_left _ _⟩
    · exact ⟨(ih next among).1, fun _ member => List.mem_append_right _ ((ih next among).2 member)⟩

end Trace

variable {source other : Source}

theorem Expr.agrees_trace {indices : Indices} {expr : Expr} {visit : Visit}
    (member : visit ∈ (expr.trace source indices).visits) : source.Agrees visit := by
  induction expr with
  | leaf value indexed =>
    cases value with
    | string path =>
      simp only [trace] at member
      split at member
      · obtain rfl := List.mem_singleton.mp member
        assumption
      · simp at member
    | int | float | bool => simp [trace, Trace.nothing] at member
  | binary operator lhs rhs ihl ihr =>
    rcases Trace.mem_andThen member with here | later
    · exact ihl here
    · exact ihr later

theorem Condition.agrees_trace {indices : Indices} {condition : Condition} {visit : Visit}
    (member : visit ∈ (condition.trace source indices).visits) : source.Agrees visit := by
  induction condition generalizing indices with
  | scalar expr => exact Expr.agrees_trace member
  | loop header body ih =>
    simp only [trace] at member
    split at member
    · rcases Trace.mem_andThen member with here | later
      · obtain rfl := List.mem_singleton.mp here
        assumption
      · obtain ⟨trace, among, there⟩ := Trace.mem_sequence later
        obtain ⟨index, -, rfl⟩ := List.mem_map.mp among
        exact ih there
    · simp at member

theorem Expr.valueFrom_congr {indices : Indices} {expr : Expr}
    (ended : (expr.trace source indices).outcome = .ok ())
    (agree : ∀ visit ∈ (expr.trace source indices).visits, other.Agrees visit) :
    expr.valueFrom other indices = expr.valueFrom source indices := by
  induction expr with
  | leaf value indexed =>
    cases value with
    | string path =>
      simp only [trace, valueFrom] at ended agree ⊢
      cases asked : source.read (indices.leafPath path indexed) with
      | ok value =>
        simp only [asked, List.mem_singleton, forall_eq] at agree
        exact agree
      | error error => simp [asked] at ended
    | int | float | bool => rfl
  | binary operator lhs rhs ihl ihr =>
    obtain ⟨first, next, visits⟩ := Trace.andThen_ok ended
    have here := ihl first fun visit member => agree visit (by rw [trace, visits]; simp [member])
    have later := ihr next fun visit member => agree visit (by rw [trace, visits]; simp [member])
    simp only [valueFrom, here, later]

theorem Condition.rangeFrom_congr {indices : Indices} {header : LoopHeader} {body : Condition}
    (ended : ((Condition.loop header body).trace source indices).outcome = .ok ())
    (agree : ∀ visit ∈ ((Condition.loop header body).trace source indices).visits, other.Agrees visit) :
    ∃ range, header.rangeFrom source indices = .ok range ∧ header.rangeFrom other indices = .ok range ∧
      ∀ index ∈ range,
        (body.trace source ((header.index, index) :: indices)).outcome = .ok () ∧
        ∀ visit ∈ (body.trace source ((header.index, index) :: indices)).visits, other.Agrees visit := by
  simp only [trace] at ended agree
  cases asked : source.bounds header (indices.substitute header.arrayPath) with
  | error error => simp [asked] at ended
  | ok bounds =>
    simp only [asked] at ended agree
    obtain ⟨-, later, visits⟩ := Trace.andThen_ok ended
    rw [visits] at agree
    have same : other.bounds header (indices.substitute header.arrayPath) = .ok bounds :=
      agree _ (List.mem_append_left _ List.mem_cons_self)
    refine ⟨Indices.range bounds.1 bounds.2, by simp [LoopHeader.rangeFrom, asked],
      by simp [LoopHeader.rangeFrom, same], fun index among => ?_⟩
    obtain ⟨fine, subset⟩ := Trace.sequence_ok later (List.mem_map_of_mem among)
    exact ⟨fine, fun visit member => agree visit (List.mem_append_right _ (subset member))⟩

theorem Condition.holdsFrom_congr {indices : Indices} {condition : Condition}
    (ended : (condition.trace source indices).outcome = .ok ())
    (agree : ∀ visit ∈ (condition.trace source indices).visits, other.Agrees visit) :
    condition.holdsFrom other indices = condition.holdsFrom source indices := by
  induction condition generalizing indices with
  | scalar expr => simp only [holdsFrom, Expr.valueFrom_congr ended agree]
  | loop header body ih =>
    obtain ⟨range, asked, same, bodies⟩ := rangeFrom_congr ended agree
    simp only [holdsFrom, asked, same, Outcome.ok_bind]
    rw [Outcome.mapM_congr fun index among => ih (bodies index among).1 (bodies index among).2]

theorem Rule.verdictFrom_congr {rule : Rule} {indices : Indices} (policy : Policy)
    (ended : (rule.asLoops.trace source indices).outcome = .ok ())
    (agree : ∀ visit ∈ (rule.asLoops.trace source indices).visits, other.Agrees visit) :
    rule.verdictFrom other indices policy = rule.verdictFrom source indices policy := by
  cases rule with
  | scalar condition =>
    have same : condition.holdsFrom other indices = condition.holdsFrom source indices :=
      Condition.holdsFrom_congr ended agree
    simp only [verdictFrom, same]
  | vector header condition =>
    obtain ⟨range, asked, answered, bodies⟩ := Condition.rangeFrom_congr ended agree
    have same : (range.map fun index =>
          (index, condition.holdsFrom other ((header.index, index) :: indices))) =
        range.map fun index =>
          (index, condition.holdsFrom source ((header.index, index) :: indices)) :=
      List.map_congr_left fun index among => by
        rw [Condition.holdsFrom_congr (bodies index among).1 (bodies index among).2]
    simp only [verdictFrom, asked, answered, Outcome.ok_bind, same]

namespace LoopHeader

private theorem colon_notMem_start {header : LoopHeader} (first : header.first?.isSome) :
    ':' ∉ header.start.toList := by
  intro member
  obtain ⟨start, first⟩ := Option.isSome_iff_exists.mp first
  obtain ⟨n, read, -⟩ := Option.bind_eq_some_iff.mp first
  obtain ⟨m, read, -⟩ := Option.bind_eq_some_iff.mp read
  rcases Decimal.mem_of_signed? read member with digit | minus | plus
  · exact absurd digit (by decide)
  · exact absurd minus (by decide)
  · exact absurd plus (by decide)

/-- The key of a loop determines its index, its start and the path of its array. -/
theorem key_inj {header other : LoopHeader} {path path' : String}
    (index : '=' ∉ header.index.toList) (index' : '=' ∉ other.index.toList)
    (first : header.first?.isSome) (first' : other.first?.isSome)
    (same : header.key path = other.key path') :
    header.index = other.index ∧ header.start = other.start ∧ path = path' := by
  have chars := congrArg String.toList same
  simp only [key, String.toList_append, List.append_assoc] at chars
  change header.index.toList ++ '=' :: (header.start.toList ++ ':' :: path.toList) =
    other.index.toList ++ '=' :: (other.start.toList ++ ':' :: path'.toList) at chars
  obtain ⟨indexes, chars⟩ := Text.cut_inj index index' chars
  obtain ⟨starts, paths⟩ :=
    Text.cut_inj (colon_notMem_start first) (colon_notMem_start first') chars
  exact ⟨String.toList_inj.mp indexes, String.toList_inj.mp starts, String.toList_inj.mp paths⟩

end LoopHeader

def Condition.headers : Condition → List LoopHeader
  | .scalar _ => []
  | .loop header body => header :: body.headers

def Rule.headers (rule : Rule) : List LoopHeader :=
  rule.asLoops.headers

theorem Expr.loop_notMem_trace {indices : Indices} {expr : Expr} {header : LoopHeader} {path : String}
    {start stop : Int} : .loop header path start stop ∉ (expr.trace source indices).visits := by
  induction expr with
  | leaf value indexed =>
    cases value with
    | string text =>
      simp only [trace]
      split <;> simp
    | int | float | bool => simp [trace, Trace.nothing]
  | binary operator lhs rhs ihl ihr =>
    intro member
    rcases Trace.mem_andThen member with here | later
    · exact ihl here
    · exact ihr later

private theorem Condition.header_of_mem_trace {indices : Indices} {condition : Condition}
    {header : LoopHeader} {path : String} {start stop : Int}
    (member : .loop header path start stop ∈ (condition.trace source indices).visits) :
    header ∈ condition.headers := by
  induction condition generalizing indices with
  | scalar expr => exact absurd member Expr.loop_notMem_trace
  | loop outer body ih =>
    simp only [trace] at member
    split at member
    · rcases Trace.mem_andThen member with here | later
      · simp only [List.mem_singleton, Visit.loop.injEq] at here
        exact here.1 ▸ List.mem_cons_self
      · obtain ⟨trace, among, there⟩ := Trace.mem_sequence later
        obtain ⟨index, -, rfl⟩ := List.mem_map.mp among
        exact List.mem_cons_of_mem _ (ih there)
    · simp at member

/-- If all items on which a search stops give the same, the search gives that. -/
theorem findSome?_eq_some_of_unique {α β : Type} {f : α → Option β} {items : List α} {a : α} {b : β}
    (member : a ∈ items) (found : f a = some b) (unique : ∀ a ∈ items, ∀ c, f a = some c → c = b) :
    items.findSome? f = some b := by
  cases search : items.findSome? f with
  | none => exact absurd (List.findSome?_eq_none_iff.mp search a member) (by simp [found])
  | some c =>
    obtain ⟨other, among, given⟩ := List.exists_of_findSome?_eq_some search
    rw [unique other among c given]

variable {document : Document}

theorem Source.bounds_ofDocument_congr {header other : LoopHeader} (path : String)
    (start : header.start = other.start) :
    (ofDocument document).bounds header path = (ofDocument document).bounds other path := by
  simp only [ofDocument, LoopHeader.first?, start]

private theorem Source.first?_isSome {header : LoopHeader} {path : String} {bounds : Int × Int}
    (asked : (ofDocument document).bounds header path = .ok bounds) : header.first?.isSome :=
  Option.isSome_of_eq_some (exists_of_bounds asked).1

/-- Two loops have one key and different bounds. -/
def Visit.Clash (visits : List Visit) : Prop :=
  ∃ key, ∃ first ∈ visits, ∃ second ∈ visits, ∃ bounds bounds', bounds ≠ bounds' ∧
    first.bounds? key = some bounds ∧ second.bounds? key = some bounds'

/-- Loops of which no index has an equals sign are told apart by their keys. -/
theorem Visit.not_clash_of_plain {visits : List Visit}
    (answers : ∀ visit ∈ visits, (Source.ofDocument document).Agrees visit)
    (plain : ∀ header path start stop, .loop header path start stop ∈ visits →
      '=' ∉ header.index.toList) : ¬ Visit.Clash visits := by
  rintro ⟨key, first, member, second, member', bounds, bounds', different, given, given'⟩
  cases first with
  | field => simp [Visit.bounds?] at given
  | loop header path start stop =>
    cases second with
    | field => simp [Visit.bounds?] at given'
    | loop header' path' start' stop' =>
      simp only [Visit.bounds?, Option.ite_none_right_eq_some, Option.some.injEq] at given given'
      obtain ⟨same, rfl⟩ := given
      obtain ⟨same', rfl⟩ := given'
      have asked : (Source.ofDocument document).bounds header path = .ok (start, stop) :=
        answers _ member
      have asked' : (Source.ofDocument document).bounds header' path' = .ok (start', stop') :=
        answers _ member'
      obtain ⟨-, starts, rfl⟩ := LoopHeader.key_inj (plain _ _ _ _ member) (plain _ _ _ _ member')
        (Source.first?_isSome asked) (Source.first?_isSome asked') (same.trans same'.symm)
      rw [Source.bounds_ofDocument_congr path starts] at asked
      exact different (Except.ok.inj (asked.symm.trans asked'))

/-- What a document answers to a leaf is bound to its key, however many answers are recorded. -/
theorem Context.get?_record_of_mem {visits : List Visit} {path : String} {value : Value} (context : Context)
    (answers : ∀ visit ∈ visits, (Source.ofDocument document).Agrees visit)
    (member : .field path value ∈ visits) : (context.record visits).get? path = some value := by
  have found : visits.reverse.findSome? (Visit.value? path) = some value := by
    apply findSome?_eq_some_of_unique (List.mem_reverse.mpr member) (by simp [Visit.value?])
    intro other among found given
    cases other with
    | loop => simp [Visit.value?] at given
    | field path' value' =>
      simp only [Visit.value?, Option.ite_none_right_eq_some, Option.some.injEq] at given
      obtain ⟨rfl, rfl⟩ := given
      have first : (Source.ofDocument document).read path' = .ok value := answers _ member
      have second : (Source.ofDocument document).read path' = .ok value' :=
        answers _ (List.mem_reverse.mp among)
      exact Except.ok.inj (second.symm.trans first)
  rw [get?_record, found, Option.some_or]

/-- A context in which answers of a document are recorded gives these answers, if no two loops
clash. -/
theorem Context.agrees_record {visits : List Visit} (context : Context)
    (answers : ∀ visit ∈ visits, (Source.ofDocument document).Agrees visit)
    (apart : ¬ Visit.Clash visits) :
    ∀ visit ∈ visits, (Source.ofContext (context.record visits)).Agrees visit := by
  intro visit member
  cases visit with
  | field path value =>
    simp only [Source.Agrees, Source.ofContext, context.get?_record_of_mem answers member]
  | loop header path start stop =>
    have here : (Visit.loop header path start stop).bounds? (header.key path) = some (start, stop) := by
      simp [Visit.bounds?]
    have found : visits.reverse.findSome? (Visit.bounds? (header.key path)) = some (start, stop) := by
      apply findSome?_eq_some_of_unique (List.mem_reverse.mpr member) here
      intro other among bounds given
      by_contra different
      exact apart ⟨_, other, List.mem_reverse.mp among, _, member, _, _, different, given, here⟩
    simp only [Source.Agrees, Source.ofContext, bounds?_record, found, Option.some_or]

/-- A rule is bound to a document that answers all its questions. -/
theorem Rule.bind_of_consult {rule : Rule} {context : Context}
    (consulted : rule.asLoops.consult (.ofDocument document) context.indices = .ok ()) :
    rule.bind document context = .ok ()
      (context.record (rule.asLoops.trace (.ofDocument document) context.indices).visits) := by
  rw [← Condition.outcome_trace] at consulted
  rw [Rule.bind_apply, Trace.run, consulted]

/-- Once a rule has been bound without a clash, evaluating it is evaluating it from the document, which
has answered all its questions. -/
theorem Rule.evaluate_of_bind {rule : Rule} {context after : Context}
    (bound : rule.bind document context = .ok () after)
    (apart : ¬ Visit.Clash (rule.asLoops.trace (.ofDocument document) context.indices).visits)
    (policy : Policy) :
    rule.asLoops.consult (.ofDocument document) context.indices = .ok () ∧
      rule.evaluate policy after =
        Pass.lift (rule.verdictFrom (.ofDocument document) context.indices policy) after := by
  rw [Rule.bind_apply, Trace.run] at bound
  cases ended : (rule.asLoops.trace (.ofDocument document) context.indices).outcome with
  | error error => simp [ended] at bound
  | ok _ =>
    simp only [ended, EStateM.Result.ok.injEq, true_and] at bound
    have consulted := (rule.asLoops.outcome_trace (.ofDocument document) context.indices).symm
    have agree := context.agrees_record (fun _ member => Condition.agrees_trace member) apart
    refine ⟨consulted.trans ended, ?_⟩
    rw [Rule.evaluate_apply, ← bound, Context.indices_record, Rule.verdictFrom_congr policy ended agree]

/-- No index of a loop of the rule has an equals sign. -/
def Rule.Plain (rule : Rule) : Prop :=
  ∀ header ∈ rule.headers, '=' ∉ header.index.toList

theorem Rule.not_clash_of_plain {rule : Rule} (plain : rule.Plain) (document : Document)
    (indices : Indices) :
    ¬ Visit.Clash (rule.asLoops.trace (.ofDocument document) indices).visits :=
  Visit.not_clash_of_plain (fun _ member => Condition.agrees_trace member)
    fun _ _ _ _ member => plain _ (Condition.header_of_mem_trace member)

variable {rule : Rule}

/-- Binding a rule in a new context and evaluating it is evaluating it from the document, if no two loops
clash. -/
theorem Engine.run_empty (engine : Engine)
    (apart : ¬ Visit.Clash (rule.asLoops.trace (.ofDocument document) []).visits) :
    ∃ after, engine.run rule document Context.empty =
      Pass.lift (rule.direct engine.policy document) after := by
  refine ⟨Context.empty.record
    (rule.asLoops.trace (.ofDocument document) Context.empty.indices).visits, ?_⟩
  rw [run, Pass.bind_apply, Rule.direct, ← Context.indices_empty]
  cases consulted : rule.asLoops.consult (.ofDocument document) Context.empty.indices with
  | error error =>
    rw [← Condition.outcome_trace] at consulted
    rw [Rule.bind_apply, Trace.run, consulted]
    rfl
  | ok _ =>
    have bound := Rule.bind_of_consult consulted
    rw [bound]
    exact (Rule.evaluate_of_bind bound apart engine.policy).2

/-- The engine gives the verdict of a rule on a document. -/
theorem Engine.evaluateDocument_of_apart (engine : Engine)
    (apart : ¬ Visit.Clash (rule.asLoops.trace (.ofDocument document) []).visits) :
    engine.evaluateDocument rule document =
      (rule.direct engine.policy document).map Prod.fst := by
  obtain ⟨after, ran⟩ := engine.run_empty apart
  simp only [evaluateDocument, reportDocument, EStateM.run, ran]
  cases rule.direct engine.policy document <;> rfl

theorem Engine.evaluateDocument_of_plain (engine : Engine) (plain : rule.Plain)
    (document : Document) :
    engine.evaluateDocument rule document =
      (rule.direct engine.policy document).map Prod.fst :=
  engine.evaluateDocument_of_apart (Rule.not_clash_of_plain plain document [])

end DocRules
