/-
This file proves that cutting a constant of a graph apart and joining the pieces folds
to the constant again, and that cutting what constants are joined to gives them back.
An operation on constants folds to the constant that it computes and gives way to it;
no other constant is lost on the way, and operations that do not read the replaced one
stay as they are. So the slices that have not been folded yet wait unchanged, since
all they read is the constant that they are cut from.
-/

import BitGraph.Proofs.Bits.Slicing
import BitGraph.Proofs.Operation.Inference
import BitGraph.Proofs.Simplify.Propagation

namespace BitGraph.Graph

/-! ### Folding on demand -/

/-- Fold the operation of a value and put what is proposed in its place. A value for which nothing
is proposed stays. -/
def foldAt (options : FoldOptions) (value : Value) (graph : Graph) : Attempt Graph Value :=
  match value with
  | .input index => .succeed (.input index) graph
  | .result id =>
    match (graph.operation? id).bind fun operation =>
        (operation.fold graph.scope options).replacement? with
    | some replacement => graph.replace id replacement
    | none => .succeed (.result id) graph

/-- Fold the operations of values, one after the other. -/
def foldEach (options : FoldOptions) : List Value → Graph → Attempt Graph (List Value)
  | [], graph => .succeed [] graph
  | value :: rest, graph =>
    (graph.foldAt options value).andThen fun settled graph =>
      (foldEach options rest graph).andThen fun others graph => .succeed (settled :: others) graph

/-- Take slices of a value, given by their lowest bits and their widths. -/
def sliceEach (source : Value) : List (Nat × Nat) → Graph → Attempt Graph (List Value)
  | [], graph => .succeed [] graph
  | (lowBit, width) :: rest, graph =>
    (graph.build (.extract source lowBit width)).andThen fun slice graph =>
      (sliceEach source rest graph).andThen fun others graph => .succeed (slice :: others) graph

/-- Cut a value into consecutive slices of these widths, and fold each of them. -/
def cut (options : FoldOptions) (source : Value) (widths : List Nat) (graph : Graph) :
    Attempt Graph (List Value) :=
  (sliceEach source (consecutive widths) graph).andThen (foldEach options)

/-- Join values, and fold what they are joined to. -/
def join (options : FoldOptions) (values : List Value) (graph : Graph) : Attempt Graph Value :=
  (graph.build (.concat values)).andThen (foldAt options)

variable {graph next : Graph} {id : Nat} {operation : Operation} {replacement : Replacement}
  {value source : Value} {values : List Value} {bits piece : Bits} {patterns : List Bits}

theorem leads_of_build {blueprint : Blueprint}
    (built : graph.build blueprint = .succeed value next) : graph.Leads next := by
  have step : graph.Step (graph.build blueprint).state := .build blueprint
  rw [built] at step
  exact .step .start step

/-- Every constant is still there. -/
def KeepsConstants (graph next : Graph) : Prop :=
  ∀ value bits, graph.scope.constant? value = some bits → next.scope.constant? value = some bits

theorem Extends.keepsConstants (extends_ : Extends graph next) : graph.KeepsConstants next := by
  intro value bits constant
  obtain ⟨id, operation, rfl, found, known⟩ := constant?_eq_some_iff.mp constant
  have kept := extends_.operation? id operation found
  exact constant?_eq_some_iff.mpr ⟨id, operation, rfl, kept, known⟩

/-- The values are constants of these patterns. -/
def HoldsConstants (graph : Graph) (values : List Value) (patterns : List Bits) : Prop :=
  List.Forall₂ (fun value bits => graph.scope.constant? value = some bits) values patterns

theorem HoldsConstants.kept (holds : graph.HoldsConstants values patterns)
    (kept : graph.KeepsConstants next) : next.HoldsConstants values patterns :=
  holds.imp fun value bits => kept value bits

/-! ### An operation on constants gives way to a constant -/

/-- A constant that is proposed can be built. -/
theorem exists_builds_of_isConstant (isConstant : replacement.IsConstant graph.scope bits) :
    ∃ value next, graph.materialize replacement = .succeed value next ∧
      Builds graph replacement value next := by
  cases replacement with
  | existing value =>
    have held := (graph.holds_iff value).mpr
      ⟨_, Scope.typeOf_of_constant? (scope_typed graph) isConstant⟩
    exact ⟨value, graph, if_pos held, .existing held⟩
  | constant other => exact ⟨_, _, build_constant graph other, .constant other⟩
  | fresh shape => cases isConstant

/-- Folding an operation on constants puts the constant that it computes in its place. All constants
stay, and so does every other operation that does not read the replaced one. -/
theorem exists_foldAt (wellFormed : graph.WellFormed)
    (found : graph.operation? id = some operation)
    (constants : graph.HoldsConstants operation.operands patterns)
    (computed : operation.evaluate patterns = .ok bits) (varies : operation.kind ≠ .constant)
    (options : FoldOptions) :
    ∃ value next, graph.foldAt options (.result id) = .succeed value next ∧
      graph.Leads next ∧ next.scope.constant? value = some bits ∧ graph.KeepsConstants next ∧
      ∀ other stored, other ≠ id → graph.operation? other = some stored →
        .result id ∉ stored.operands → next.operation? other = some stored := by
  obtain ⟨replacement, folded, isConstant⟩ := fold_of_constants (scope_typed graph)
    (wellFormed.verified id operation found) constants computed varies options
  have suits := fold_suits (scope_typed graph) wellFormed.scope_verified
    (wellFormed.verified id operation found) folded
  have unknown : ∀ known, graph.scope.constant? (.result id) ≠ some known := by
    intro known constant
    obtain ⟨_, _, ⟨⟩, there, same⟩ := constant?_eq_some_iff.mp constant
    cases found.symm.trans there
    exact varies (Operation.kind_of_constant? same)
  have other : replacement ≠ .existing (.result id) := by
    rintro rfl
    exact unknown bits isConstant
  obtain ⟨value, next, built, builds⟩ := exists_builds_of_isConstant isConstant
  have apart := builds.apart ((graph.isLive_iff id).mpr ⟨operation, found⟩) other
  have wellFormedNext := builds.growth.changes.wellFormed wellFormed
  have replaced := replace_of_builds wellFormed found suits.type other built builds
  refine ⟨value, next.supplant id operation value, ?_, ?_, ?_, fun read known constant => ?_,
    fun number stored differs there unread => ?_⟩
  · rw [foldAt, found, Option.bind_some, folded]
    exact replaced
  · have step : graph.Step (graph.replace id replacement).state := .replace id replacement
    rw [replaced] at step
    exact .step .start step
  · rw [constant?_supplant wellFormedNext apart.symm]
    exact builds.constant? isConstant
  · have kept : read ≠ .result id := by
      rintro rfl
      exact unknown known constant
    rw [constant?_supplant wellFormedNext kept]
    exact builds.growth.extends.keepsConstants read known constant
  · rw [operation?_supplant wellFormedNext, if_neg differs,
      builds.growth.extends.operation? number stored there]
    exact congrArg some (Operation.substitute_of_not_mem unread value)

/-! ### Slices of a constant -/

/-- The operation that takes the slice. -/
def sliceOf (source : Value) (slice : Nat × Nat) (positive : 0 < slice.2) : Operation :=
  ⟨.extract, [source], .extract slice.1, ⟨slice.2, positive⟩⟩

/-- The value is a slice of the source. -/
def Slices (graph : Graph) (source value : Value) (slice : Nat × Nat) : Prop :=
  ∃ id positive, value = .result id ∧
    graph.operation? id = some (sliceOf source slice positive)

theorem build_slice (constant : graph.scope.constant? source = some bits) {slice : Nat × Nat}
    (positive : 0 < slice.2) (inside : slice.1 + slice.2 ≤ bits.width) :
    graph.build (.extract source slice.1 slice.2) =
      .succeed (.result graph.nodes.size) (graph.store (sliceOf source slice positive)) := by
  have typed := Scope.typeOf_of_constant? (scope_typed graph) constant
  have verified : (sliceOf source slice positive).verify graph.scope graph.strictness = .ok () :=
    (Operation.verify_eq_ok_iff _ _ _).mpr ⟨[.ofBits bits], .cons typed .nil, rfl, rfl,
      List.forall_mem_singleton.mpr inside⟩
  have declared : declaredType slice.2 = .ok ⟨slice.2, positive⟩ := by
    rw [declaredType, BitType.ofWidth, dif_pos positive]
    rfl
  have built : (Blueprint.extract source slice.1 slice.2).build graph.scope graph.strictness =
      .ok (sliceOf source slice positive) := by
    rw [Blueprint.build, declared]
    exact Operation.build_some_eq_ok_iff.mpr ⟨rfl, verified⟩
  rw [Graph.build, built]
  exact insert_eq_succeed verified

theorem evaluate_sliceOf {slice : Nat × Nat} (positive : 0 < slice.2)
    (cut : bits.extract slice.1 slice.2 = .ok piece) :
    (sliceOf source slice positive).evaluate [bits] = .ok piece :=
  congrArg (Except.mapError GraphError.bits) cut

/-- Slices that lie inside a constant are all taken, as new operations. -/
theorem exists_sliceEach (constant : graph.scope.constant? source = some bits)
    {slices : List (Nat × Nat)}
    (inside : ∀ slice ∈ slices, 0 < slice.2 ∧ slice.1 + slice.2 ≤ bits.width) :
    ∃ values next, graph.sliceEach source slices = .succeed values next ∧ graph.Leads next ∧
      Extends graph next ∧ List.Forall₂ (next.Slices source) values slices ∧ values.Nodup ∧
      ∀ value ∈ values, ¬ graph.holds value = true := by
  induction slices generalizing graph with
  | nil => exact ⟨[], graph, rfl, .start, .refl graph, .nil, .nil, fun _ member => nomatch member⟩
  | cons slice rest inductionHypothesis =>
    rw [List.forall_mem_cons] at inside
    obtain ⟨⟨positive, within⟩, inside⟩ := inside
    have built := build_slice constant positive within
    have grown := extends_store graph (sliceOf source slice positive)
    obtain ⟨values, next, sliced, leads, extended, each, distinct, fresh⟩ :=
      inductionHypothesis (grown.keepsConstants source bits constant) inside
    have stored := operation?_store_self graph (sliceOf source slice positive)
    have held : (graph.store (sliceOf source slice positive)).holds (.result graph.nodes.size) :=
      (isLive_iff _ _).mpr ⟨_, stored⟩
    refine ⟨.result graph.nodes.size :: values, next, ?_, (leads_of_build built).trans leads,
      grown.trans extended, .cons ⟨_, positive, rfl, extended.operation? _ _ stored⟩ each,
      List.nodup_cons.mpr ⟨fun again => fresh _ again held, distinct⟩,
      List.forall_mem_cons.mpr ⟨fun old => ?_, fun value member old => ?_⟩⟩
    · rw [sliceEach, built, Attempt.succeed_andThen, sliced]
      rfl
    · obtain ⟨operation, found⟩ := (graph.isLive_iff _).mp old
      exact Nat.lt_irrefl _ (lt_size_of_operation? found)
    · exact fresh value member (grown.holds old)

/-- Slices of a constant that are folded one after the other become the constants that are cut
out. -/
theorem exists_foldEach (reachable : graph.Reachable)
    (constant : graph.scope.constant? source = some bits) {slices : List (Nat × Nat)}
    (each : List.Forall₂ (graph.Slices source) values slices) (distinct : values.Nodup)
    (cut : List.Forall₂ (fun slice piece => bits.extract slice.1 slice.2 = .ok piece) slices
      patterns) (options : FoldOptions) :
    ∃ settled next, graph.foldEach options values = .succeed settled next ∧ graph.Leads next ∧
      graph.KeepsConstants next ∧ next.HoldsConstants settled patterns := by
  induction values generalizing graph slices patterns with
  | nil =>
    cases each
    cases cut
    exact ⟨[], graph, rfl, .start, fun _ _ known => known, .nil⟩
  | cons value values inductionHypothesis =>
    obtain ⟨slice, slices, ⟨id, positive, rfl, found⟩, behind, rfl⟩ :=
      List.forall₂_cons_left_iff.mp each
    obtain ⟨piece, pieces, extracted, others, rfl⟩ := List.forall₂_cons_left_iff.mp cut
    rw [List.nodup_cons] at distinct
    have varies : (sliceOf source slice positive).kind ≠ .constant := Kind.noConfusion
    obtain ⟨settled, next, folded, leads, known, kept, waiting⟩ :=
      exists_foldAt reachable.wellFormed found (.cons constant .nil)
        (evaluate_sliceOf positive extracted) varies options
    have apart : source ≠ .result id := by
      rintro rfl
      obtain ⟨_, _, ⟨⟩, there, same⟩ := constant?_eq_some_iff.mp constant
      cases found.symm.trans there
      cases Operation.kind_of_constant? same
    -- The slices behind this one read only the source, so they are as they were.
    have later : List.Forall₂ (next.Slices source) values slices := by
      have apartFrom : ∀ value ∈ values, value ≠ .result id := fun value member same =>
        distinct.1 (same ▸ member)
      refine ((List.forall₂_and_left _ _).mpr ⟨apartFrom, behind⟩).imp fun value slice sliced => ?_
      obtain ⟨other, number, positive, rfl, there⟩ := sliced
      exact ⟨number, positive, rfl, waiting number _ (fun same => other (congrArg _ same)) there
        fun member => apart (List.mem_singleton.mp member).symm⟩
    obtain ⟨rest, final, foldedRest, further, keptFurther, holds⟩ :=
      inductionHypothesis (reachable.leads leads) (kept source bits constant) later distinct.2
        others
    refine ⟨settled :: rest, final, ?_, leads.trans further,
      fun value bits known => keptFurther value bits (kept value bits known),
      .cons (keptFurther settled piece known) holds⟩
    rw [foldEach, folded, Attempt.succeed_andThen, foldedRest]
    rfl

/-! ### Joined constants -/

/-- Constants that are not too wide together can be joined. -/
theorem exists_joined (holds : graph.HoldsConstants values patterns) (some : patterns ≠ [])
    (small : (patterns.map Bits.width).sum ≤ largestWidth) :
    ∃ type, graph.build (.concat values) =
      .succeed (.result graph.nodes.size) (graph.store ⟨.concat, values, .none, type⟩) := by
  obtain ⟨first, rest, rfl⟩ := List.exists_cons_of_ne_nil some
  have total : BitType.totalWidth ((first :: rest).map .ofBits) =
      ((first :: rest).map Bits.width).sum := by
    rw [BitType.totalWidth_eq_sum, List.map_map]
    rfl
  have positive : 0 < ((first :: rest).map Bits.width).sum :=
    Nat.add_pos_left first.positive _
  have typed : List.Forall₂ (fun value type => graph.scope.typeOf value = .some type) values
      ((first :: rest).map .ofBits) :=
    List.forall₂_map_right_iff.mpr
      (holds.imp fun value bits => Scope.typeOf_of_constant? (scope_typed graph))
  have verified : (Operation.mk .concat values .none ⟨_, positive⟩).verify graph.scope
      graph.strictness = .ok () :=
    (Operation.verify_eq_ok_iff _ _ _).mpr ⟨_, typed, rfl, rfl, total⟩
  have inferred : (graph.scope.types values).bind (Kind.concat.inferType graph.strictness) =
      .ok ⟨_, positive⟩ := by
    have joined := (BitType.concatenated?_eq_some_iff ((first :: rest).map .ofBits)
      ⟨_, positive⟩).mpr ⟨total, small⟩
    rw [List.map_cons] at joined
    rw [(graph.scope.types_eq_ok_iff _ _).mpr typed]
    simp only [Except.bind, Kind.inferType, Kind.signature, List.map_cons, joined]
  have built : (Blueprint.concat values).build graph.scope graph.strictness =
      .ok ⟨.concat, values, .none, ⟨_, positive⟩⟩ :=
    Operation.build_none_eq_ok_iff.mpr
      ⟨_, inferred, Operation.build_some_eq_ok_iff.mpr ⟨rfl, verified⟩⟩
  refine ⟨⟨_, positive⟩, ?_⟩
  rw [Graph.build, built]
  exact insert_eq_succeed verified

/-! ### Cutting and joining -/

/-- Folding proposes this for the operation of a value. -/
def FoldsTo (graph : Graph) (options : FoldOptions) (value : Value) (replacement : Replacement) :
    Prop :=
  ∃ id operation, value = .result id ∧ graph.operation? id = some operation ∧
    operation.fold graph.scope options = .folded replacement

/-- A constant that is cut apart becomes the constants of its pieces. -/
theorem exists_cut (reachable : graph.Reachable)
    (constant : graph.scope.constant? source = some bits) {widths : List Nat}
    (positive : ∀ width ∈ widths, 0 < width) (whole : widths.sum = bits.width)
    (cut : bits.CutsInto widths patterns) (options : FoldOptions) :
    ∃ values next, graph.cut options source widths = .succeed values next ∧ graph.Leads next ∧
      next.HoldsConstants values patterns := by
  obtain ⟨slices, sliced, taken, leads, extended, each, distinct, _⟩ :=
    exists_sliceEach constant fun slice member =>
      whole ▸ inside_of_mem_consecutive positive member
  obtain ⟨values, next, folded, further, _, holds⟩ :=
    exists_foldEach (reachable.leads leads) (extended.keepsConstants source bits constant) each
      distinct cut options
  refine ⟨values, next, ?_, leads.trans further, holds⟩
  rw [Graph.cut, taken, Attempt.succeed_andThen, folded]

/-- Joined constants fold to what they are joined to, a single one of them to itself. -/
theorem foldsTo_joined {first : Bits} {rest : List Bits}
    (holds : graph.HoldsConstants values (first :: rest)) (type : BitType) (options : FoldOptions) :
    let joined := graph.store ⟨.concat, values, .none, type⟩
    (2 ≤ values.length → joined.FoldsTo options (.result graph.nodes.size)
      (.constant (rest.foldl Bits.concat first))) ∧
    (values.length = 1 → ∃ single,
      joined.FoldsTo options (.result graph.nodes.size) (.existing single) ∧
        joined.scope.constant? single = some (rest.foldl Bits.concat first)) := by
  intro joined
  have found := operation?_store_self graph ⟨.concat, values, .none, type⟩
  have kept := holds.kept (extends_store graph ⟨.concat, values, .none, type⟩).keepsConstants
  refine ⟨fun several => ⟨_, _, rfl, found, ?_⟩, fun one => ?_⟩
  · have folded : (Operation.mk .concat values .none type).foldConstants joined.scope .unchanged =
        .folded (.constant (rest.foldl Bits.concat first)) :=
      @foldConstants_of_constants joined.scope ⟨.concat, values, .none, type⟩ _ _ kept rfl
        .unchanged
    rcases values with _ | ⟨high, _ | ⟨low, others⟩⟩
    · exact absurd several (by decide)
    · exact absurd several (Nat.not_succ_le_self 1)
    · exact folded
  · obtain ⟨single, pattern, rfl, alone, constant⟩ :=
      exists_of_forall₂_one kept (holds.length_eq ▸ one)
    cases alone
    exact ⟨single, ⟨_, _, rfl, found, rfl⟩, constant⟩

/-- A slice of a constant folds to what is cut out. -/
theorem foldsTo_slice (constant : graph.scope.constant? source = some bits) {slice : Nat × Nat}
    (cut : bits.extract slice.1 slice.2 = .ok piece) (options : FoldOptions) :
    ∃ value next, graph.build (.extract source slice.1 slice.2) = .succeed value next ∧
      next.FoldsTo options value (.constant piece) := by
  obtain ⟨inside, width, _⟩ := (bits.extract_eq_ok_iff _ _ _).mp cut
  have positive : 0 < slice.2 := width ▸ piece.positive
  have grown := extends_store graph (sliceOf source slice positive)
  have kept := grown.keepsConstants source bits constant
  have folded := @foldConstants_of_constants
    (graph.store (sliceOf source slice positive)).scope (sliceOf source slice positive) [bits] piece
    (.cons kept .nil) (evaluate_sliceOf positive cut)
  exact ⟨_, _, build_slice constant positive inside, _, _, rfl, operation?_store_self _ _,
    folded _⟩

/-- Cutting a constant apart and joining it again folds to it: the consecutive slices of a constant
that are folded and replaced become the constants of its pieces, and what these are joined to
folds to the constant that was cut, a single piece to a value that has become it. The other way
around, what constants are joined to folds to one constant, and the slices of that one fold to the
constants that were joined. -/
theorem cutting_and_joining_fold (reachable : graph.Reachable) (options : FoldOptions) :
    (∀ source bits widths, graph.scope.constant? source = some bits →
      bits.width ≤ largestWidth → (∀ width ∈ widths, 0 < width) → widths.sum = bits.width →
      ∃ pieces values middle joined next, bits.CutsInto widths pieces ∧
        graph.cut options source widths = .succeed values middle ∧
        middle.HoldsConstants values pieces ∧
        middle.build (.concat values) = .succeed joined next ∧
        (2 ≤ widths.length → next.FoldsTo options joined (.constant bits)) ∧
        (widths.length = 1 → ∃ single, next.FoldsTo options joined (.existing single) ∧
          next.scope.constant? single = some bits)) ∧
    (∀ values first rest, graph.HoldsConstants values (first :: rest) →
      ((first :: rest).map Bits.width).sum ≤ largestWidth →
      ∃ joined middle, graph.join options values = .succeed joined middle ∧
        middle.scope.constant? joined = some (rest.foldl Bits.concat first) ∧
        List.Forall₂ (fun slice part => ∃ value next,
            middle.build (.extract joined slice.1 slice.2) = .succeed value next ∧
              next.FoldsTo options value (.constant part))
          (consecutive ((first :: rest).map Bits.width)) (first :: rest)) := by
  constructor
  · intro source bits widths constant small positive whole
    obtain ⟨first, rest, pieces, joined⟩ := Bits.exists_pieces_of_whole positive whole
    obtain ⟨values, middle, cut, _, holds⟩ :=
      exists_cut reachable constant positive whole pieces options
    have width : ((first :: rest).map Bits.width).sum = bits.width := by
      rw [← joined, Bits.width_foldl_concat, List.map_cons, List.sum_cons]
    have length : values.length = widths.length := by
      rw [holds.length_eq, ← pieces.length_eq, length_consecutive]
    obtain ⟨type, built⟩ :=
      exists_joined holds (List.cons_ne_nil first rest) (width.trans_le small)
    have folds := foldsTo_joined holds type options
    rw [joined, length] at folds
    exact ⟨_, values, middle, _, _, pieces, cut, holds, built, folds⟩
  · intro values first rest holds small
    obtain ⟨type, built⟩ := exists_joined holds (List.cons_ne_nil first rest) small
    have grown := extends_store graph ⟨.concat, values, .none, type⟩
    have varies : (Operation.mk .concat values .none type).kind ≠ .constant := Kind.noConfusion
    obtain ⟨joined, middle, folded, _, constant, _, _⟩ :=
      exists_foldAt (reachable.leads (leads_of_build built)).wellFormed
        (operation?_store_self graph ⟨.concat, values, .none, type⟩)
        (holds.kept grown.keepsConstants) rfl varies options
    refine ⟨joined, middle, ?_, constant, ?_⟩
    · rw [Graph.join, built, Attempt.succeed_andThen, folded]
    · exact (Bits.cutsInto_joined first rest).imp fun slice part found =>
        foldsTo_slice constant found options

/-- A byte is cut into three pieces and joined again, and joined to itself and cut in halves. -/
theorem cutting_and_joining_fold_byte :
    let bits : Bits := ⟨8, by decide, 180⟩
    let graph := (build {} (.constant bits)).state
    (∃ values middle joined next, graph.cut {} (.result 0) [3, 4, 1] = .succeed values middle ∧
      middle.HoldsConstants values [⟨3, by decide, 5⟩, ⟨4, by decide, 10⟩, ⟨1, by decide, 0⟩] ∧
      middle.build (.concat values) = .succeed joined next ∧
      next.FoldsTo {} joined (.constant bits)) ∧
    ∃ joined middle value next, graph.join {} [.result 0, .result 0] = .succeed joined middle ∧
      middle.scope.constant? joined = some ⟨16, by decide, 46260⟩ ∧
      middle.build (.extract joined 8 8) = .succeed value next ∧
      next.FoldsTo {} value (.constant bits) := by
  intro bits graph
  have reachable : graph.Reachable := ⟨{}, .step .start (.build _)⟩
  have constant : graph.scope.constant? (.result 0) = some bits := by decide
  obtain ⟨cutting, joining⟩ := cutting_and_joining_fold reachable {}
  obtain ⟨pieces, values, middle, joined, next, cut, taken, holds, built, several, _⟩ :=
    cutting (.result 0) bits [3, 4, 1] constant (by decide) (by decide) (by decide)
  obtain ⟨whole, between, joinedAgain, known, slices⟩ :=
    joining [.result 0, .result 0] bits [bits] (.cons constant (.cons constant .nil)) (by decide)
  obtain ⟨⟨value, last, sliced, folds⟩, _⟩ := List.forall₂_cons.mp slices
  have expected : bits.CutsInto [3, 4, 1]
      [⟨3, by decide, 5⟩, ⟨4, by decide, 10⟩, ⟨1, by decide, 0⟩] :=
    .cons (by decide) (.cons (by decide) (.cons (by decide) .nil))
  exact ⟨⟨values, middle, joined, next, taken, cut.unique expected ▸ holds, built,
    several (by decide)⟩, whole, between, value, last, joinedAgain, known.trans (by decide), sliced,
    folds⟩

end BitGraph.Graph
