import Nia.Diagnostics.Forest

/-! Diagnostic reports.

A report sorts the diagnostics, drops repeated ones, hangs each below the one diagnostic its cause
names and lists the forest, parents first, up to a limit. The comparison ends only when everything
that tells two diagnostics apart has been compared (`compareReportItems_eq`), so the sorted list,
and with it the report, does not depend on the order of the input (`build_perm`). What the report
says about causes is said here of the input list alone: `Causes` and `OnCauseCycle`.

An item stands for what the trait of report items supplies: the source path and the diagnostic. -/
namespace Nia.Diagnostics

open List

/-! ### Diagnostics

Records whose comparison is derived are products in the order of their fields. -/

/-- Start and end. -/
abbrev Span := Nat ×ₗ Nat

inductive Severity where
  | error
  | warning
  deriving DecidableEq

inductive DiagnosticCategory where
  | user
  | internal
  deriving DecidableEq

inductive DiagnosticStage where
  | compiler | parse | load | targetConfig | resolution | typeNormalization | itemSignature | localResolution
  | typeCheck | bodyIr | const | staticCheck | functionIr | backendIr | llvm | linker
  deriving DecidableEq

/-- Its name and description are left out. -/
structure DiagnosticCodeDef where
  code : String
  severity : Severity
  category : DiagnosticCategory
  stage : DiagnosticStage
  deriving DecidableEq

def internal (code : String) (stage : DiagnosticStage) : DiagnosticCodeDef := ⟨code, .error, .internal, stage⟩

def user (code : String) (stage : DiagnosticStage) : DiagnosticCodeDef := ⟨code, .error, .user, stage⟩

def userWarning (code : String) (stage : DiagnosticStage) : DiagnosticCodeDef := ⟨code, .warning, .user, stage⟩

/-- The registry `codes::ALL`. -/
def codes : List DiagnosticCodeDef := [
  internal "I0001" .compiler, internal "I0100" .resolution, internal "I0101" .itemSignature,
  internal "I0102" .itemSignature, internal "I0103" .itemSignature, internal "I0104" .itemSignature,
  internal "I0105" .localResolution, internal "I0106" .typeCheck, internal "I0107" .load,
  internal "I0108" .load, internal "I0109" .load, internal "I0110" .compiler, internal "I0200" .llvm,
  internal "I0201" .functionIr, internal "I0300" .backendIr, internal "I0301" .bodyIr, user "E0101" .parse,
  user "E0102" .load, user "E0103" .targetConfig, user "E0104" .compiler, user "E0105" .compiler,
  user "E0201" .resolution, user "E0202" .typeNormalization, user "E0203" .itemSignature,
  user "E0301" .typeCheck, user "E0302" .localResolution, user "E0303" .typeCheck, user "E0304" .typeCheck,
  user "E0401" .const, user "E0501" .staticCheck, user "E0601" .llvm, user "E0701" .linker,
  user "E0702" .compiler, user "E0703" .compiler, user "E0704" .compiler, user "E0705" .compiler,
  userWarning "W0201" .load]

/-- The registry is the only way to name a code. -/
abbrev DiagnosticCode := { definition : DiagnosticCodeDef // definition ∈ codes }

/-- Provenance of a span, in the order of the source. -/
inductive SpanSource where
  | source | fallback | generated
  deriving DecidableEq

inductive LabelStyle where
  | primary | secondary
  deriving DecidableEq

inductive SuggestionApplicability where
  | machineApplicable | maybeIncorrect | hasPlaceholders | unspecified
  deriving DecidableEq

instance : LinearOrder SpanSource := LinearOrder.lift' SpanSource.ctorIdx (by intro a b; cases a <;> cases b <;> decide)

instance : LinearOrder LabelStyle := LinearOrder.lift' LabelStyle.ctorIdx (by intro a b; cases a <;> cases b <;> decide)

instance : LinearOrder SuggestionApplicability :=
  LinearOrder.lift' SuggestionApplicability.ctorIdx (by intro a b; cases a <;> cases b <;> decide)

theorem toLex_mk_inj {α β : Type} {a c : α} {b d : β} : toLex (a, b) = toLex (c, d) ↔ a = c ∧ b = d := Prod.mk_inj

/-- An optional value in the derived order: nothing comes first. -/
def ordered {α : Type} (value : Option α) : WithBot α := value

structure DiagnosticLabel where
  span : Span
  spanSource : SpanSource
  style : LabelStyle
  message : Option String
  deriving DecidableEq

instance : LinearOrder DiagnosticLabel :=
  LinearOrder.lift'
    (fun label => toLex (label.span, toLex (label.spanSource, toLex (label.style, ordered label.message))))
    (by
      rintro ⟨⟩ ⟨⟩ h
      simp only [toLex_mk_inj] at h
      obtain ⟨rfl, rfl, rfl, hmessage⟩ := h
      cases hmessage
      rfl)

structure DiagnosticCause where
  sourcePath : String
  code : String
  span : Span
  deriving DecidableEq

instance : LinearOrder DiagnosticCause :=
  LinearOrder.lift' (fun cause => toLex (cause.sourcePath, toLex (cause.code, cause.span)))
    (by rintro ⟨⟩ ⟨⟩ h; simpa using h)

/-- Message, applicability and edits, an edit being a span and its replacement. -/
abbrev DiagnosticSuggestion := String ×ₗ SuggestionApplicability ×ₗ List (Span ×ₗ String)

/-- Span, source path and message. -/
abbrev RelatedDiagnostic := Span ×ₗ WithBot String ×ₗ String

/-- Key and value. -/
abbrev DebugField := String ×ₗ String

structure Diagnostic where
  code : DiagnosticCode
  summary : String
  sourcePath : Option String
  labels : List DiagnosticLabel
  notes : List String
  help : List String
  suggestions : List DiagnosticSuggestion
  related : List RelatedDiagnostic
  cause : Option DiagnosticCause
  debug : List DebugField
  deriving DecidableEq

/-- What a report item supplies: its source path and its diagnostic. -/
structure Item where
  path : Option String
  diagnostic : Diagnostic
  deriving DecidableEq

variable (diagnostic : Diagnostic)

def Diagnostic.primaryLabel : Option DiagnosticLabel :=
  (diagnostic.labels.find? fun label => label.style == .primary).or diagnostic.labels.head?

def Diagnostic.primarySpan : Option Span := diagnostic.primaryLabel.map (·.span)

def Diagnostic.primarySpanSource : Option SpanSource :=
  diagnostic.primaryLabel.map (·.spanSource)

/-! ### Comparing -/

inductive DiagnosticReportEntryKind where
  | root | related | independent
  deriving DecidableEq

def reportEntryKind : DiagnosticReportEntryKind :=
  match diagnostic.primarySpanSource with
  | some .source => .root
  | some .generated | some .fallback | none => .independent

def reportEntryKindRank : Nat :=
  if diagnostic.cause.isSome then 1
  else match reportEntryKind diagnostic with
    | .root => 0
    | .related => 1
    | .independent => 2

def diagnosticStagePriority : Nat := diagnostic.code.1.stage.ctorIdx

def diagnosticPriority : Nat ×ₗ Nat :=
  toLex (match diagnostic.code.1.category with
    | .internal => 0
    | .user => 1,
  match diagnostic.code.1.severity with
    | .error => 0
    | .warning => 1)

def spanSourceRank : Nat :=
  match diagnostic.primarySpanSource with
  | some .source => 0
  | some .generated => 1
  | some .fallback => 2
  | none => 3

/-- The structured payload, in the order it is compared. -/
def payload : List DiagnosticLabel ×ₗ List String ×ₗ List String ×ₗ
    List DiagnosticSuggestion ×ₗ List RelatedDiagnostic ×ₗ WithBot DiagnosticCause ×ₗ List DebugField ×ₗ
    WithBot String :=
  toLex (diagnostic.labels, toLex (diagnostic.notes, toLex (diagnostic.help, toLex (diagnostic.suggestions,
    toLex (diagnostic.related, toLex (ordered diagnostic.cause, toLex (diagnostic.debug,
      ordered diagnostic.sourcePath)))))))

/-- The span compared, `Span::default` where there is none. -/
def comparedSpan : Nat × Nat := ofLex (diagnostic.primarySpan.getD (toLex (0, 0)))

def compareReportItems (left right : Item) : Ordering :=
  let a := left.diagnostic
  let b := right.diagnostic
  (cmp (diagnosticPriority a) (diagnosticPriority b)).then <|
  (cmp (reportEntryKindRank a) (reportEntryKindRank b)).then <|
  (cmp (spanSourceRank a) (spanSourceRank b)).then <|
  (cmp (diagnosticStagePriority a) (diagnosticStagePriority b)).then <|
  (cmp (ordered left.path) (ordered right.path)).then <|
  (cmp (comparedSpan a).1 (comparedSpan b).1).then <|
  (cmp (comparedSpan a).2 (comparedSpan b).2).then <|
  (cmp a.code.1.code b.code.1.code).then <|
  (cmp a.summary b.summary).then <|
  cmp (payload a) (payload b)

/-- Everything compared, the first key first. -/
def rank (item : Item) : (Nat ×ₗ Nat) ×ₗ Nat ×ₗ Nat ×ₗ Nat ×ₗ WithBot String ×ₗ Nat ×ₗ Nat ×ₗ String ×ₗ String ×ₗ
    List DiagnosticLabel ×ₗ List String ×ₗ List String ×ₗ List DiagnosticSuggestion ×ₗ List RelatedDiagnostic ×ₗ
    WithBot DiagnosticCause ×ₗ List DebugField ×ₗ WithBot String :=
  let d := item.diagnostic
  toLex (diagnosticPriority d, toLex (reportEntryKindRank d, toLex (spanSourceRank d,
    toLex (diagnosticStagePriority d, toLex (ordered item.path, toLex ((comparedSpan d).1,
      toLex ((comparedSpan d).2, toLex (d.code.1.code, toLex (d.summary, payload d)))))))))

theorem cmp_toLex {α β : Type} [LinearOrder α] [LinearOrder β] (a c : α) (b d : β) :
    cmp (toLex (a, b)) (toLex (c, d)) = (cmp a c).then (cmp b d) := by
  rcases lt_trichotomy a c with h | rfl | h
  · rw [(cmp_eq_lt_iff _ _).mpr h, (cmp_eq_lt_iff _ _).mpr (Prod.Lex.toLex_lt_toLex.mpr (.inl h))]
    rfl
  · rw [cmp_self_eq_eq, Ordering.eq_then]
    rcases lt_trichotomy b d with h | rfl | h
    · rw [(cmp_eq_lt_iff _ _).mpr h, (cmp_eq_lt_iff _ _).mpr (Prod.Lex.toLex_lt_toLex.mpr (by simp [h]))]
    · rw [cmp_self_eq_eq, cmp_self_eq_eq]
    · rw [(cmp_eq_gt_iff _ _).mpr h, (cmp_eq_gt_iff _ _).mpr (Prod.Lex.toLex_lt_toLex.mpr (by simp [h]))]
  · rw [(cmp_eq_gt_iff _ _).mpr h, (cmp_eq_gt_iff _ _).mpr (Prod.Lex.toLex_lt_toLex.mpr (.inl h))]
    rfl

theorem compareReportItems_eq (a b : Item) : compareReportItems a b = cmp (rank a) (rank b) := by
  simp only [compareReportItems, rank, cmp_toLex]

theorem codes_injective : ∀ a ∈ codes, ∀ b ∈ codes, a.code = b.code → a = b := by
  decide +kernel

theorem rank_injective : Function.Injective rank := by
  rintro ⟨path, code, summary, sourcePath, labels, notes, help, suggestions, related, cause, debug⟩
    ⟨path', code', summary', sourcePath', labels', notes', help', suggestions', related', cause', debug'⟩ h
  simp only [rank, payload, toLex_mk_inj] at h
  obtain ⟨-, -, -, -, hpath, -, -, hcode, hsummary, hlabels, hnotes, hhelp, hsuggestions, hrelated, hcause, hdebug,
    hsource⟩ := h
  obtain rfl := Subtype.ext (codes_injective _ code.2 _ code'.2 hcode)
  cases hpath
  cases hsource
  cases hcause
  subst hsummary hlabels hnotes hhelp hsuggestions hrelated hdebug
  rfl

/-! ### Building -/

/-- `sort_by`, which is stable. -/
def sortItems (diagnostics : List Item) : List Item :=
  diagnostics.mergeSort fun left right => (compareReportItems left right).isLE

/-- The entries kept and the number of those dropped; what was seen is what was kept. -/
def dropDuplicates (entries : List Item) : List Item × Nat :=
  entries.foldl (fun found entry => if entry ∈ found.1 then (found.1, found.2 + 1) else (found.1 ++ [entry], found.2))
    ([], 0)

/-- What a cause names: path, code and span of a diagnostic in source text. -/
def sourceKey (entry : Item) : Option (String × String × Span) :=
  if reportEntryKind entry.diagnostic = .root then
    entry.path.bind fun path => entry.diagnostic.primarySpan.map fun span => (path, entry.diagnostic.code.1.code, span)
  else none

def sourcePositions (selected : List Item) (key : String × String × Span) : List (Fin selected.length) :=
  (List.finRange selected.length).filter fun index => decide (sourceKey (selected.get index) = some key)

def DiagnosticCause.key (cause : DiagnosticCause) : String × String × Span := (cause.sourcePath, cause.code, cause.span)

/-- The position a cause names, where it names just one. -/
def causePosition (selected : List Item) (index : Fin selected.length) : Option (Fin selected.length) :=
  (selected.get index).diagnostic.cause.bind fun cause =>
    match sourcePositions selected cause.key with
    | [position] => some position
    | _ => none

def namedParents (selected : List Item) (index : Fin selected.length) : Option (Fin selected.length) :=
  (causePosition selected index).filter fun parent => decide (parent ≠ index)

/-- The parents but of positions on a cycle. -/
def ownedParents (selected : List Item) (index : Fin selected.length) : Option (Fin selected.length) :=
  (namedParents selected index).filter fun _ => !causalCycleNodes (namedParents selected) index

def relationshipKind (selected : List Item) (index : Fin selected.length) : DiagnosticReportEntryKind :=
  if (ownedParents selected index).isSome then .related
  else if (selected.get index).diagnostic.cause.isSome then .independent
  else reportEntryKind (selected.get index).diagnostic

structure DiagnosticReport where
  entries : List Item
  entryKinds : List DiagnosticReportEntryKind
  entryParents : List (Option Nat)
  errorCount : Nat
  warningCount : Nat
  suppressedDuplicates : Nat
  suppressedDownstream : Nat
  suppressedByLimit : Nat

def countSeverity (entries : List Item) (severity : Severity) : Nat :=
  entries.countP fun entry => decide (entry.diagnostic.code.1.severity = severity)

/-- Lists the forest over the selected entries, up to the limit. -/
def reportOf (selected : List Item) (suppressedDuplicates maxDiagnostics suppressedDownstream : Nat) :
    DiagnosticReport :=
  let orderedIndices := orderedIndices (ownedParents selected)
  let retained := orderedIndices.take maxDiagnostics
  let entries := retained.map selected.get
  { entries
    entryKinds := retained.map (relationshipKind selected)
    entryParents := retained.map fun index => (ownedParents selected index).bind (retained.idxOf? ·)
    errorCount := countSeverity entries .error
    warningCount := countSeverity entries .warning
    suppressedDuplicates
    suppressedDownstream
    suppressedByLimit := orderedIndices.length - maxDiagnostics }

def buildDiagnosticReportWithDownstream (diagnostics : List Item) (maxDiagnostics suppressedDownstream : Nat) :
    DiagnosticReport :=
  let selected := dropDuplicates (sortItems diagnostics)
  reportOf selected.1 selected.2 maxDiagnostics suppressedDownstream

/-! ### The order of the input -/

theorem isLE_compareReportItems {a b : Item} : (compareReportItems a b).isLE = true ↔ rank a ≤ rank b := by
  rw [compareReportItems_eq, Ordering.isLE_iff_ne_gt, cmp_eq_gt_iff, not_lt]

theorem pairwise_sortItems (diagnostics : List Item) : (sortItems diagnostics).Pairwise fun a b => rank a ≤ rank b := by
  have htrans : ∀ a b c : Item, (compareReportItems a b).isLE → (compareReportItems b c).isLE →
      (compareReportItems a c).isLE := fun a b c hab hbc =>
    isLE_compareReportItems.mpr ((isLE_compareReportItems.mp hab).trans (isLE_compareReportItems.mp hbc))
  have htotal : ∀ a b : Item, ((compareReportItems a b).isLE || (compareReportItems b a).isLE) = true := fun a b => by
    rw [Bool.or_eq_true, isLE_compareReportItems, isLE_compareReportItems]
    exact le_total ..
  exact (pairwise_mergeSort htrans htotal diagnostics).imp isLE_compareReportItems.mp

theorem sortItems_perm {a b : List Item} (h : a.Perm b) : sortItems a = sortItems b := by
  refine List.Perm.eq_of_pairwise (fun x y _ _ hxy hyx => rank_injective (le_antisymm hxy hyx)) (pairwise_sortItems a)
    (pairwise_sortItems b) ?_
  exact (mergeSort_perm a _).trans (h.trans (mergeSort_perm b _).symm)

theorem build_perm {a b : List Item} (h : a.Perm b) (maxDiagnostics suppressedDownstream : Nat) :
    buildDiagnosticReportWithDownstream a maxDiagnostics suppressedDownstream =
      buildDiagnosticReportWithDownstream b maxDiagnostics suppressedDownstream := by
  rw [buildDiagnosticReportWithDownstream, buildDiagnosticReportWithDownstream, sortItems_perm h]

theorem dropDuplicates_concat (entries : List Item) (last : Item) : dropDuplicates (entries ++ [last]) =
    if last ∈ (dropDuplicates entries).1 then ((dropDuplicates entries).1, (dropDuplicates entries).2 + 1)
    else ((dropDuplicates entries).1 ++ [last], (dropDuplicates entries).2) := by
  rw [dropDuplicates, foldl_append]
  rfl

/-- Each different entry once, and the others counted. -/
theorem dropDuplicates_spec (entries : List Item) :
    (dropDuplicates entries).1.Nodup ∧ (∀ entry, entry ∈ (dropDuplicates entries).1 ↔ entry ∈ entries) ∧
      (dropDuplicates entries).1.length + (dropDuplicates entries).2 = entries.length := by
  induction entries using List.reverseRecOn with
  | nil => simp [dropDuplicates]
  | append_singleton entries last ih =>
    obtain ⟨hnodup, hmem, hlength⟩ := ih
    rw [dropDuplicates_concat]
    split
    · next hseen =>
      refine ⟨hnodup, fun entry => ?_, by simp only [length_append, length_singleton]; omega⟩
      rw [hmem, mem_append, mem_singleton]
      refine ⟨.inl, fun h => h.elim id ?_⟩
      rintro rfl
      exact (hmem entry).mp hseen
    · next hnew =>
      refine ⟨nodup_append_comm.mp (nodup_cons.mpr ⟨hnew, hnodup⟩), fun entry => ?_,
        by simp only [length_append, length_singleton]; omega⟩
      rw [mem_append, mem_append, hmem]

/-! ### Causes -/

/-- The one diagnostic in source text that the item's cause names. -/
def Causes (diagnostics : List Item) (cause item : Item) : Prop :=
  cause ∈ diagnostics ∧ ∃ named, item.diagnostic.cause = some named ∧ sourceKey cause = some named.key ∧
    ∀ other ∈ diagnostics, sourceKey other = some named.key → other = cause

/-- Following causes leads back to the item. -/
def OnCauseCycle (diagnostics : List Item) (item : Item) : Prop :=
  Relation.TransGen (fun item cause => Causes diagnostics cause item) item item

theorem causes_congr {a b : List Item} (h : ∀ item, item ∈ a ↔ item ∈ b) : Causes a = Causes b := by
  funext cause item
  simp only [Causes, h]

theorem mem_of_transGen {diagnostics : List Item} {a b : Item}
    (h : Relation.TransGen (fun item cause => Causes diagnostics cause item) a b) : b ∈ diagnostics := by
  cases h with
  | single hcause => exact hcause.1
  | tail _ hcause => exact hcause.1

section Selected

variable {selected : List Item} (hnodup : selected.Nodup)

include hnodup

theorem causePosition_eq_some {index position : Fin selected.length} :
    causePosition selected index = some position ↔ Causes selected (selected.get position) (selected.get index) := by
  have hinjective := nodup_iff_injective_get.mp hnodup
  have hposition : ∀ key, sourcePositions selected key = [position] ↔
      sourceKey (selected.get position) = some key ∧
        ∀ other ∈ selected, sourceKey other = some key → other = selected.get position := by
    intro key
    have hfiltered : (sourcePositions selected key).Nodup := (nodup_finRange _).filter _
    have hmem : ∀ index, index ∈ sourcePositions selected key ↔ sourceKey (selected.get index) = some key :=
      fun index => by simp [sourcePositions]
    constructor
    · intro heq
      refine ⟨(hmem position).mp (heq ▸ mem_singleton_self _), fun other hother hkey => ?_⟩
      obtain ⟨index, rfl⟩ := get_of_mem hother
      have := (hmem index).mpr hkey
      rw [heq, mem_singleton] at this
      rw [this]
    · rintro ⟨hkey, honly⟩
      refine perm_singleton.mp
        ((perm_ext_iff_of_nodup hfiltered (nodup_singleton _)).mpr fun index => ?_)
      rw [hmem, mem_singleton]
      exact ⟨fun h => hinjective (honly _ (get_mem ..) h), fun h => h ▸ hkey⟩
  rw [causePosition, Option.bind_eq_some_iff, Causes, and_iff_right (get_mem ..)]
  refine exists_congr fun named => and_congr_right fun _ => ?_
  rw [← hposition]
  constructor
  · intro h
    split at h
    · next only heq => rw [heq, Option.some.inj h]
    · cases h
  · intro h
    rw [h]

theorem onCycle_iff {index : Fin selected.length} :
    OnCycle (causePosition selected) index ↔ OnCauseCycle selected (selected.get index) := by
  have hstep : ∀ a b, Step (causePosition selected) a b ↔ Causes selected (selected.get b) (selected.get a) :=
    fun a b => causePosition_eq_some hnodup
  constructor
  · exact fun h => Relation.TransGen.lift selected.get (fun a b => (hstep a b).mp) _ _ h
  · have hback : ∀ item, Relation.TransGen (fun item cause => Causes selected cause item) (selected.get index) item →
        ∀ position, selected.get position = item →
          Relation.TransGen (Step (causePosition selected)) index position := by
      intro item h
      induction h with
      | single hcause =>
        rintro position rfl
        exact .single ((hstep _ _).mpr hcause)
      | tail _ hcause ih =>
        rintro position rfl
        -- the item passed before is itself a cause, and so has a position
        obtain ⟨between, hbetween⟩ := get_of_mem (mem_of_transGen ‹_›)
        rw [← hbetween] at hcause
        exact (ih between hbetween).tail ((hstep _ _).mpr hcause)
    exact fun h => hback _ h index rfl

theorem ownedParents_eq_some {index parent : Fin selected.length} :
    ownedParents selected index = some parent ↔
      Causes selected (selected.get parent) (selected.get index) ∧ ¬ OnCauseCycle selected (selected.get index) := by
  rw [← onCycle_iff hnodup, ← causePosition_eq_some hnodup]
  exact owned_eq_some (causePosition selected)

theorem ownedParents_acyclic (index : Fin selected.length) : ¬ OnCycle (ownedParents selected) index := by
  intro h
  have hnamed : ∀ a b, Step (ownedParents selected) a b → Step (causePosition selected) a b ∧
      ¬ OnCycle (causePosition selected) a := fun a b hstep => by
    have := (ownedParents_eq_some hnodup).mp hstep
    exact ⟨(causePosition_eq_some hnodup).mpr this.1, (onCycle_iff hnodup).not.mpr this.2⟩
  obtain ⟨next, hfirst, -⟩ := Relation.TransGen.head'_iff.mp h
  exact (hnamed _ _ hfirst).2 (Relation.TransGen.mono (fun a b hstep => (hnamed a b hstep).1) _ _ h)

/-- A parent is retained with its children, at the position before them that the report gives. -/
theorem idxOf?_ownedParent {maxDiagnostics position : Nat} {index parent : Fin selected.length}
    (hindex : ((orderedIndices (ownedParents selected)).take maxDiagnostics)[position]? = some index)
    (hparent : ownedParents selected index = some parent) :
    ∃ earlier < position, ((orderedIndices (ownedParents selected)).take maxDiagnostics).idxOf? parent = some earlier ∧
      ((orderedIndices (ownedParents selected)).take maxDiagnostics)[earlier]? = some parent := by
  obtain ⟨-, -, hbefore⟩ := orderedIndices_of_acyclic (ownedParents_acyclic hnodup)
  generalize horder : orderedIndices (ownedParents selected) = order at *
  obtain ⟨hlt, hget⟩ := List.getElem?_eq_some_iff.mp hindex
  -- the retained part, and the order itself, split at the child
  have hsplit := take_append_drop position (order.take maxDiagnostics)
  rw [← getElem_cons_drop hlt, hget] at hsplit
  have hmem : parent ∈ (order.take maxDiagnostics).take position := by
    refine hbefore _ index ((order.take maxDiagnostics).drop (position + 1) ++ order.drop maxDiagnostics) ?_ parent
      hparent
    rw [← cons_append, ← append_assoc, hsplit, take_append_drop]
  have hin : parent ∈ order.take maxDiagnostics := mem_of_mem_take hmem
  refine ⟨(order.take maxDiagnostics).idxOf parent, ?_, ?_, ?_⟩
  · have hfront : (order.take maxDiagnostics).idxOf parent =
        ((order.take maxDiagnostics).take position).idxOf parent := by
      conv_lhs => rw [← hsplit]
      exact idxOf_append_of_mem hmem
    have hbound := idxOf_lt_length_of_mem hmem
    rw [hfront]
    exact hbound.trans_le (length_take_le ..)
  · exact List.findIdx?_eq_some_of_exists ⟨parent, hin, beq_self_eq_true parent⟩
  · exact List.getElem?_idxOf hin

theorem length_orderedIndices : (orderedIndices (ownedParents selected)).length = selected.length := by
  obtain ⟨hunique, hall, -⟩ := orderedIndices_of_acyclic (ownedParents_acyclic hnodup)
  have hperm := (perm_ext_iff_of_nodup hunique (nodup_finRange _)).mpr fun index => by
    simp only [hall, mem_finRange]
  rw [hperm.length_eq, length_finRange]

/-- Without a limit every entry stands in the report once. -/
theorem mem_map_orderedIndices :
    ((orderedIndices (ownedParents selected)).map selected.get).Nodup ∧
      ∀ item, item ∈ (orderedIndices (ownedParents selected)).map selected.get ↔ item ∈ selected := by
  obtain ⟨hunique, hall, -⟩ := orderedIndices_of_acyclic (ownedParents_acyclic hnodup)
  refine ⟨hunique.map (nodup_iff_injective_get.mp hnodup), fun item => ?_⟩
  rw [mem_map, mem_iff_get]
  exact exists_congr fun index => and_iff_right (hall index)

theorem reportOf_parents {suppressedDuplicates maxDiagnostics suppressedDownstream position : Nat} {entry : Item} :
    let report := reportOf selected suppressedDuplicates maxDiagnostics suppressedDownstream
    report.entries[position]? = some entry →
      (∀ parent, report.entryParents[position]? = some (some parent) →
        parent < position ∧ ∃ cause, report.entries[parent]? = some cause ∧ Causes selected cause entry ∧
          ¬ OnCauseCycle selected entry) ∧
      ∀ cause, Causes selected cause entry → ¬ OnCauseCycle selected entry →
        ∃ parent, report.entryParents[position]? = some (some parent) ∧ report.entries[parent]? = some cause := by
  intro report hentry
  obtain ⟨index, hindex, rfl⟩ := Option.map_eq_some_iff.mp (List.getElem?_map .. ▸ hentry)
  have hparents : report.entryParents[position]? = some ((ownedParents selected index).bind
      (((orderedIndices (ownedParents selected)).take maxDiagnostics).idxOf? ·)) := by
    refine (List.getElem?_map ..).trans ?_
    rw [hindex]
    rfl
  have hentries : ∀ {earlier : Nat} {parent}, ((orderedIndices (ownedParents selected)).take maxDiagnostics)[earlier]? =
      some parent → report.entries[earlier]? = some (selected.get parent) := fun h => by
    refine (List.getElem?_map ..).trans ?_
    rw [h]
    rfl
  rw [hparents]
  refine ⟨fun parent h => ?_, fun cause hcause hcycle => ?_⟩
  · obtain ⟨above, howned, hposition⟩ := Option.bind_eq_some_iff.mp (Option.some.inj h)
    obtain ⟨earlier, hlt, hfound, hget⟩ := idxOf?_ownedParent hnodup hindex howned
    obtain rfl := Option.some.inj (hposition.symm.trans hfound)
    exact ⟨hlt, selected.get above, hentries hget, (ownedParents_eq_some hnodup).mp howned⟩
  · obtain ⟨above, rfl⟩ := get_of_mem hcause.1
    have howned := (ownedParents_eq_some hnodup).mpr ⟨hcause, hcycle⟩
    obtain ⟨earlier, -, hfound, hget⟩ := idxOf?_ownedParent hnodup hindex howned
    exact ⟨earlier, by rw [howned, Option.bind_some, hfound], hentries hget⟩

end Selected

theorem entries_reportOf (selected : List Item) (suppressedDuplicates maxDiagnostics suppressedDownstream : Nat) :
    (reportOf selected suppressedDuplicates maxDiagnostics suppressedDownstream).entries =
      ((orderedIndices (ownedParents selected)).map selected.get).take maxDiagnostics := map_take

theorem mem_selected {diagnostics : List Item} {item : Item} :
    item ∈ (dropDuplicates (sortItems diagnostics)).1 ↔ item ∈ diagnostics := by
  rw [(dropDuplicates_spec _).2.1, sortItems, mem_mergeSort]

/-- **Reports are order-independent forests.** -/
theorem build_forest (diagnostics : List Item) (maxDiagnostics suppressedDownstream : Nat) :
    let report := buildDiagnosticReportWithDownstream diagnostics maxDiagnostics suppressedDownstream
    let unlimited := buildDiagnosticReportWithDownstream diagnostics diagnostics.length suppressedDownstream
    (∀ reordered, diagnostics.Perm reordered →
      buildDiagnosticReportWithDownstream reordered maxDiagnostics suppressedDownstream = report) ∧
    (unlimited.entries.Nodup ∧ (∀ item, item ∈ unlimited.entries ↔ item ∈ diagnostics) ∧
      report.entries = unlimited.entries.take maxDiagnostics) ∧
    report.entries.length + report.suppressedDuplicates + report.suppressedByLimit = diagnostics.length ∧
    report.entryKinds.length = report.entries.length ∧ report.entryParents.length = report.entries.length ∧
    ∀ (index : Nat) (entry : Item), report.entries[index]? = some entry →
      (∀ parent : Nat, report.entryParents[index]? = some (some parent) →
        parent < index ∧ ∃ cause, report.entries[parent]? = some cause ∧ Causes diagnostics cause entry ∧
          ¬ OnCauseCycle diagnostics entry) ∧
      ∀ cause, Causes diagnostics cause entry → ¬ OnCauseCycle diagnostics entry →
        ∃ parent : Nat, report.entryParents[index]? = some (some parent) ∧ report.entries[parent]? = some cause := by
  intro report unlimited
  obtain ⟨hnodup, -, hcount⟩ := dropDuplicates_spec (sortItems diagnostics)
  obtain ⟨hunique, hmem⟩ := mem_map_orderedIndices hnodup
  have hcauses : Causes diagnostics = Causes (dropDuplicates (sortItems diagnostics)).1 :=
    causes_congr fun item => mem_selected.symm
  have hordered := length_orderedIndices hnodup
  rw [sortItems, length_mergeSort, ← sortItems] at hcount
  have hentries : report.entries = _ := entries_reportOf ..
  have hunlimited : unlimited.entries = (orderedIndices (ownedParents (dropDuplicates (sortItems diagnostics)).1)).map
      (dropDuplicates (sortItems diagnostics)).1.get := by
    rw [show unlimited.entries = _ from entries_reportOf .., take_of_length_le]
    rw [length_map, hordered]
    omega
  have hsuppressed : report.suppressedByLimit =
      (orderedIndices (ownedParents (dropDuplicates (sortItems diagnostics)).1)).length - maxDiagnostics := rfl
  have hduplicates : report.suppressedDuplicates = (dropDuplicates (sortItems diagnostics)).2 := rfl
  refine ⟨fun reordered hperm => (build_perm hperm _ _).symm, ⟨?_, ?_, ?_⟩, ?_, ?_, ?_, fun index entry hentry => ?_⟩
  · rwa [hunlimited]
  · intro item
    rw [hunlimited, hmem, mem_selected]
  · rw [hentries, hunlimited]
  · rw [hentries, hsuppressed, hduplicates, length_take, length_map, hordered]
    omega
  · exact (length_map _).trans (length_map _).symm
  · exact (length_map _).trans (length_map _).symm
  · rw [OnCauseCycle, hcauses]
    exact reportOf_parents hnodup hentry

end Nia.Diagnostics
