import Rollup.Proofs.Staging.Capture
import Rollup.Proofs.Staging.Scope

/-! Aggregates that have a column to themselves.

A column can be read by a single aggregate, and by no key and no condition besides. Then nothing
else in a stage reads it, but for the column of time: that is read for the interval and by those who
pick values by time.
-/

set_option autoImplicit false

namespace Rollup

theorem index_unique_of_countP {α : Type} {p : α → Bool} {items : List α}
    (one : items.countP p = 1) {i j : Nat} {x y : α} (first : items[i]? = some x)
    (second : items[j]? = some y) (is : p x = true) (is' : p y = true) : i = j := by
  induction items generalizing i j with
  | nil => cases first
  | cons item rest ih =>
    rw [List.countP_cons] at one
    have none : p item = true → ∀ {z : α}, z ∈ rest → p z ≠ true := by
      intro holds
      rw [if_pos holds] at one
      exact fun member => List.countP_eq_zero.mp (Nat.succ.inj one) _ member
    cases i with
    | zero =>
      cases j with
      | zero => rfl
      | succ j =>
        obtain rfl := Option.some.inj first
        exact absurd is' (none is (List.mem_of_getElem? second))
    | succ i =>
      cases j with
      | zero =>
        obtain rfl := Option.some.inj second
        exact absurd is (none is' (List.mem_of_getElem? first))
      | succ j =>
        have skipped : ¬ p item = true := fun holds =>
          none holds (List.mem_of_getElem? first) is
        rw [if_neg skipped] at one
        exact congrArg (· + 1) (ih one first second)

namespace StageBuilder
variable {b : StageBuilder} {stage : Stage} {index : Nat} {name : String}

/-- The column of time is read beside the aggregates of it. -/
def ReadsTime (b : StageBuilder) (name : String) : Prop :=
  name = b.renderer.timeColumn ∧ (b.time.isSome = true ∨
    ∃ slot ∈ b.renderer.slots, slot.call.func.picksByTime = true)

/-- A column that a single aggregate reads, and nothing else that is counted. -/
structure Alone (b : StageBuilder) (index : Nat) (name : String) : Prop where
  single : ∀ other slot, b.renderer.slots[other]? = some slot → name ∈ slot.call.columns →
    other = index
  keys : ∀ key ∈ b.keys, key.column ≠ name
  bucket : name ≠ bucketName
  carried : name ∉ b.carried
  row : ∀ condition ∈ b.conditions, condition.level = .row →
    .column name ∉ condition.expr.references
  group : ∀ condition ∈ b.conditions, condition.level = .group →
    .aggregate index ∉ condition.expr.references
  shared : ∀ part ∈ b.renderer.shared, .aggregate index ∉ part.expr.references

namespace Alone
variable (alone : b.Alone index name) (regular : b.renderer.dialect.Regular)
include alone

theorem unread_key {key : GroupKey} (member : key ∈ b.keys) :
    name ∉ (Sql.Expr.named key.column).columns := fun read =>
  alone.keys key member (List.mem_singleton.mp read).symm

include regular

theorem aggregate {other : Nat} {slot : AggregateSlot} {e : Sql.Expr}
    (found : b.renderer.slots[other]? = some slot) (apart : other ≠ index)
    (ok : b.renderer.aggregate slot.call = .ok e) (read : name ∈ e.columns) :
    b.ReadsTime name := by
  have reads := (Renderer.over_aggregate regular ok).columns read
  simp only [List.flatMap_map, Sql.Expr.columns_named, List.flatMap_singleton'] at reads
  rcases List.mem_append.mp reads with column | time
  · exact absurd (alone.single other slot found column) apart
  · split at time
    · rename_i picks
      exact ⟨List.mem_singleton.mp time, .inr ⟨slot, List.mem_of_getElem? found, picks⟩⟩
    · cases time

theorem expr (grouped : ∀ slot ∈ b.renderer.slots, slot.windowed = false) {e : GroupExpr}
    (lifted : ∀ target ∈ e.references, target.isLifted = true)
    (apart : .aggregate index ∉ e.references) {x : Sql.Expr}
    (ok : b.renderer.render .table e = .ok x) (read : name ∈ x.columns) : b.ReadsTime name := by
  have each : ∀ target ∈ e.references, ∀ y, b.renderer.plainReference .table target = .ok y →
      ∀ column ∈ y.columns, column = name → b.ReadsTime name := by
    rintro target member y ok column within rfl
    cases target with
    | key place =>
      obtain ⟨key, found, rfl⟩ := Renderer.key_eq_ok.mp ok
      exact absurd within (alone.unread_key (List.mem_of_getElem? found))
    | aggregate place =>
      obtain ⟨slot, found, ok⟩ := Renderer.aggregate_eq_ok.mp ok
      rw [Renderer.slotExpr_of_call (by simp) (grouped slot (List.mem_of_getElem? found))] at ok
      refine alone.aggregate regular found ?_ ok within
      rintro rfl
      exact apart member
    | _ => cases lifted _ member
  exact Renderer.columns_groupExpr each (Renderer.render_of_isLifted lifted ok) name read rfl

theorem bucketStart? (stored : ∀ range, b.time = some range → range.column = b.renderer.timeColumn)
    {e : Sql.Expr} (start : b.bucketStart? = .ok (some e)) (read : name ∈ e.columns) :
    b.ReadsTime name := by
  rcases bucketStart?_eq_ok start with ⟨-, absent⟩ | ⟨-, time, step, floor, found, -, floored, same⟩
  · cases absent
  · cases same
    obtain rfl : name = time.column := by simpa using (regular.timeFloor floored).columns read
    exact ⟨stored time found, .inl (by rw [found]; rfl)⟩

theorem rowFilter (stored : ∀ range, b.time = some range → range.column = b.renderer.timeColumn)
    (refers : b.Refers) {filter : Option Sql.Expr} (ok : b.rowFilter = .ok filter)
    (read : name ∈ clauseColumns filter) : b.ReadsTime name := by
  obtain ⟨written, each, rfl⟩ := rowFilter_eq_ok.mp ok
  obtain ⟨x, listed, read⟩ := mem_clauseColumns.mp read
  rcases List.mem_append.mp listed with listed | listed
  · unfold timeConditions at listed
    split at listed
    · cases listed
    · rename_i time found
      have bound : ∀ {op : Sql.BinaryOp} {t : Instant},
          x = .binary op (.named time.column) (b.renderer.dialect.timestamp t) →
          b.ReadsTime name := by
        rintro op t rfl
        rw [Sql.Expr.columns, regular.timestamp, List.append_nil, Sql.Expr.columns_named] at read
        exact ⟨(List.mem_singleton.mp read).trans (stored time found), .inl (by rw [found]; rfl)⟩
      rcases List.mem_cons.mp listed with lower | listed
      · exact bound lower
      · exact bound (List.mem_singleton.mp listed)
  · obtain ⟨condition, among, ok⟩ := related_of_mem_right each listed
    obtain ⟨among, level⟩ := List.mem_filter.mp among
    have row := beq_iff_eq.mp level
    have reads : ∀ target ∈ condition.expr.references, ∀ y,
        b.renderer.reference .table target = .ok y →
        ∀ column ∈ y.columns, column = name → b.ReadsTime name := by
      rintro target member y ok column within rfl
      rcases refers.row condition among row target member with ⟨other, rfl⟩ | ⟨place, rfl⟩
      · cases ok
        obtain rfl := List.mem_singleton.mp within
        exact absurd member (alone.row condition among row)
      · obtain ⟨key, found, rfl⟩ := Renderer.key_eq_ok.mp ok
        exact absurd within (alone.unread_key (List.mem_of_getElem? found))
    exact Renderer.columns_groupExpr reads ok name read rfl

theorem groupFilter (grouped : ∀ slot ∈ b.renderer.slots, slot.windowed = false)
    (refers : b.Refers) {filter : Option Sql.Expr} (ok : b.groupFilter .table = .ok filter)
    (read : name ∈ clauseColumns filter) : b.ReadsTime name := by
  obtain ⟨written, each, rfl⟩ := groupFilter_eq_ok.mp ok
  obtain ⟨x, listed, read⟩ := mem_clauseColumns.mp read
  obtain ⟨condition, among, ok⟩ := related_of_mem_right each listed
  obtain ⟨among, level⟩ := List.mem_filter.mp among
  have group := beq_iff_eq.mp level
  exact alone.expr regular grouped (refers.group condition among group)
    (alone.group condition among group) ok read

theorem head (stored : ∀ range, b.time = some range → range.column = b.renderer.timeColumn)
    {bucket : Option Sql.Expr} (start : b.bucketStart? = .ok bucket) :
    ∀ field ∈ bucketFields bucket ++ b.keyFields .table, name ∈ field.expr.columns →
      b.ReadsTime name := by
  intro field member read
  rcases List.mem_append.mp member with member | member
  · obtain ⟨e, there, rfl⟩ := Option.map_eq_some_iff.mp (Option.mem_toList.mp member)
    exact alone.bucketStart? regular stored (there ▸ start) read
  · obtain ⟨key, listed, rfl⟩ := List.mem_map.mp member
    exact absurd read (alone.unread_key listed)

/-! ## Stages -/

variable (stored : ∀ range, b.time = some range → range.column = b.renderer.timeColumn)
  (refers : b.Refers) {slot : AggregateSlot} (found : b.renderer.slots[index]? = some slot)
  (given : slot.name = some name)
include stored refers found given

omit alone regular stored refers in
theorem index_ne {other : AggregateSlot} (listed : other ∈ b.renderer.slots) {otherName : String}
    (named : other.name = some otherName) (apart : otherName ≠ name) :
    ∃ place, b.renderer.slots[place]? = some other ∧ place ≠ index := by
  obtain ⟨place, there⟩ := List.mem_iff_getElem?.mp listed
  refine ⟨place, there, ?_⟩
  rintro rfl
  cases there.symm.trans found
  exact apart (Option.some.inj (named.symm.trans given))

theorem groupsTable (grouped : ∀ slot ∈ b.renderer.slots, slot.windowed = false)
    (groups : b.GroupsTable stage) (passes : b.Passes .table stage) {place : Option Nat}
    {e : Sql.Expr} (placed : (place, e) ∈ stage.placed)
    (apart : ∀ own field, place = some own → stage.fields[own]? = some field → field.name ≠ name)
    (read : name ∈ e.columns) : b.ReadsTime name := by
  rcases Stage.mem_placed.mp placed with ⟨own, field, there, rfl, rfl⟩ |
    ⟨-, member | tested | filtered⟩
  · obtain ⟨bucket, aggregates, shared, start, each, parts, fields⟩ := passes.fields
    have member := List.mem_of_getElem? there
    rw [fields, passedWindows, List.nil_append] at member
    rcases List.mem_append.mp member with member | member
    · exact alone.head regular stored start field member read
    rcases List.mem_append.mp member with member | member
    · obtain ⟨other, among, -, named, ok⟩ := related_of_mem_right each member
      obtain ⟨place, found, differ⟩ := index_ne found given (mem_groupSlots.mp among).1 named
        (apart own field rfl there)
      exact alone.aggregate regular found differ ok read
    · obtain ⟨part, among, -, ok⟩ := related_of_mem_right parts member
      exact alone.expr regular grouped (refers.shared part among) (alone.shared part among) ok read
  · rw [groups.groupBy] at member
    rcases List.mem_append.mp member with member | member
    · obtain ⟨key, listed, rfl⟩ := List.mem_map.mp member
      exact absurd read (alone.unread_key listed)
    · obtain ⟨-, rfl⟩ := mem_bucketColumn.mp member
      exact absurd (List.mem_singleton.mp read) alone.bucket
  · refine alone.groupFilter regular grouped refers groups.having ?_
    rw [tested]
    exact read
  · refine alone.rowFilter regular stored refers groups.filter ?_
    rw [filtered]
    exact read

theorem windows (picks : ∀ slot ∈ b.renderer.slots, slot.windowed = true →
      slot.call.func.picksByTime = true) (windows : b.Windows stage) {place : Option Nat}
    {e : Sql.Expr} (placed : (place, e) ∈ stage.placed)
    (apart : ∀ own field, place = some own → stage.fields[own]? = some field → field.name ≠ name)
    (read : name ∈ e.columns) : b.ReadsTime name := by
  rcases Stage.mem_placed.mp placed with ⟨own, field, there, rfl, rfl⟩ |
    ⟨-, member | tested | filtered⟩
  · obtain ⟨bucket, results, start, each, fields⟩ := windows.fields
    have head := alone.head regular stored start
    have member := List.mem_of_getElem? there
    rw [fields, List.append_assoc] at member
    rcases List.mem_append.mp member with member | member
    · exact head field member read
    rcases List.mem_append.mp member with member | member
    · obtain ⟨column, passed, rfl⟩ := List.mem_map.mp member
      exact absurd (List.mem_singleton.mp read ▸ passed) alone.carried
    · obtain ⟨other, among, named, ok⟩ := related_of_mem_right each member
      obtain ⟨listed, windowed⟩ := mem_windowSlots.mp among
      obtain ⟨place, found, differ⟩ := index_ne found given listed named (apart own field rfl there)
      rcases (Renderer.columns_windowCall ok).2 name read with column | part | time
      · exact absurd (alone.single place other found column) differ
      · -- The partition is what the bucket and the keys are computed from.
        obtain ⟨part, member, read⟩ := List.mem_flatMap.mp part
        rcases List.mem_append.mp member with member | member
        · obtain ⟨key, listed, rfl⟩ := List.mem_map.mp member
          exact absurd read (alone.unread_key listed)
        · have there := Option.mem_toList.mp member
          exact alone.bucketStart? regular stored (there ▸ start) read
      · exact ⟨time, .inr ⟨other, listed, picks other listed windowed⟩⟩
  · rw [windows.groupBy] at member
    cases member
  · cases windows.having.symm.trans tested
  · refine alone.rowFilter regular stored refers windows.filter ?_
    rw [filtered]
    exact read

end Alone

/-! ## Made up names -/

section
variable {scope : Scope} {field : Field} (unheaded : field.name ∉ b.bucketNames ++ b.keyNames)
  (computed : field.expr ≠ .named field.name)
include unheaded

theorem not_mem_head {bucket : Option Sql.Expr} (start : b.BucketAt scope bucket) :
    field ∉ bucketFields bucket ++ b.keyFields scope := by
  intro member
  have named := List.mem_map_of_mem (f := (·.name)) member
  rw [List.map_append, names_bucketFields (isSome_bucketAt start), names_keyFields] at named
  exact unheaded named

include computed

theorem Passes.made (passes : b.Passes scope stage) (member : field ∈ stage.fields) :
    (∃ slot ∈ b.renderer.slots, slot.windowed = false ∧ slot.name = some field.name) ∨
      field.name ∈ sharedNames b.renderer.shared := by
  obtain ⟨bucket, aggregates, shared, start, each, parts, fields⟩ := passes.fields
  rw [fields] at member
  rcases List.mem_append.mp member with member | member
  · exact absurd member (not_mem_head unheaded start)
  rcases List.mem_append.mp member with member | member
  · rcases List.mem_append.mp member with member | member
    · cases scope with
      | table => cases member
      | _ =>
        obtain ⟨name, -, rfl⟩ := List.mem_map.mp member
        exact absurd rfl computed
    · obtain ⟨slot, among, windowed, named, -⟩ := related_of_mem_right each member
      exact .inl ⟨slot, (mem_groupSlots.mp among).1, windowed, named⟩
  · obtain ⟨part, among, named, -⟩ := related_of_mem_right parts member
    exact .inr (List.mem_filterMap.mpr ⟨part, among, named⟩)

theorem Windows.made (windows : b.Windows stage) (member : field ∈ stage.fields) :
    ∃ slot ∈ b.renderer.slots, slot.windowed = true ∧ slot.name = some field.name := by
  obtain ⟨bucket, results, start, each, fields⟩ := windows.fields
  rw [fields, List.append_assoc] at member
  rcases List.mem_append.mp member with member | member
  · exact absurd member (not_mem_head unheaded start)
  rcases List.mem_append.mp member with member | member
  · obtain ⟨column, -, rfl⟩ := List.mem_map.mp member
    exact absurd rfl computed
  · obtain ⟨slot, among, named, -⟩ := related_of_mem_right each member
    obtain ⟨listed, windowed⟩ := mem_windowSlots.mp among
    exact ⟨slot, listed, windowed, named⟩

end

theorem Distinct.count_windows (distinct : b.Distinct) (windows : b.Windows stage)
    (member : name ∈ stage.names) (other : name ≠ bucketName) : stage.names.count name = 1 := by
  have absent : name ∉ b.bucketNames := fun listed => other (mem_bucketNames.mp listed).2
  rw [windows.names, List.append_assoc, List.append_assoc, List.mem_append] at member
  rw [windows.names, List.append_assoc, List.append_assoc, List.count_append,
    List.count_eq_zero.mpr absent, Nat.zero_add]
  refine List.count_eq_one_of_mem ?_ (member.resolve_left absent)
  rw [← List.append_assoc]
  exact distinct.carried

end StageBuilder

/-! ## Reading beside a field -/

/-- A column is read at another place than that of a field. -/
def Stage.ReadsBeside (stage : Stage) (index : Nat) (name : String) : Prop :=
  ∃ place e, (place, e) ∈ stage.placed ∧ place ≠ some index ∧ name ∈ e.columns

theorem Stage.readsBeside_of_mem {stage : Stage} {index : Nat} {name : String}
    (member : name ∈ stage.columnsReadBesides index) : stage.ReadsBeside index name := by
  simp only [columnsReadBesides, mem_firstSeen, List.mem_append, List.mem_flatMap] at member
  rcases member with ((⟨field, listed, read⟩ | ⟨e, listed, read⟩) | tested) | filtered
  · obtain ⟨own, apart, there⟩ := List.mem_eraseIdx_iff_getElem?.mp listed
    exact ⟨some own, field.expr, mem_placed.mpr (.inl ⟨own, field, there, rfl, rfl⟩),
      fun same => apart (Option.some.inj same), read⟩
  · exact ⟨none, e, mem_placed.mpr (.inr ⟨rfl, .inl listed⟩), by simp, read⟩
  · unfold havingColumns at tested
    split at tested
    · rename_i e there
      exact ⟨none, e, mem_placed.mpr (.inr ⟨rfl, .inr (.inl there)⟩), by simp, tested⟩
    · cases tested
  · unfold filterColumns at filtered
    split at filtered
    · rename_i e _ there
      exact ⟨none, e, mem_placed.mpr (.inr ⟨rfl, .inr (.inr there)⟩), by simp, filtered⟩
    · cases filtered

/-- A field that is found to hide a column computes something, and its name is read beside it. -/
theorem StageBuilder.reads_of_shadowing? {stage : Stage} {field : Field}
    (hides : shadowing? stage = some field) : ∃ index, stage.fields[index]? = some field ∧
      field.expr ≠ .named field.name ∧ field.name ≠ bucketName ∧
        stage.ReadsBeside index field.name := by
  obtain ⟨⟨field, index⟩, found, rfl⟩ := Option.map_eq_some_iff.mp hides
  have tested := List.find?_some found
  simp only [Bool.and_eq_true, Bool.not_eq_true', bne_iff_ne, List.contains_iff_mem] at tested
  obtain ⟨⟨computed, other⟩, read⟩ := tested
  refine ⟨index, List.mem_zipIdx_iff_getElem?.mp (List.mem_of_find?_eq_some found), ?_, other,
    Stage.readsBeside_of_mem read⟩
  intro passed
  have is : passesOn field = true := by
    unfold passesOn
    rw [passed]
    exact beq_self_eq_true field.name
  cases is.symm.trans computed

/-! ## Fresh names -/

namespace Stage
variable {stage below : Stage} {schema : Schema} {name : String}

theorem clause_of_placed {place : Option Nat} {e : Sql.Expr} (placed : (place, e) ∈ stage.placed)
    (read : name ∈ e.columns) :
    name ∈ stage.inputColumns ∨ (∃ e ∈ stage.groupBy, name ∈ e.columns) ∨
      name ∈ clauseColumns stage.having ∨ name ∈ clauseColumns stage.filter := by
  rcases mem_placed.mp placed with ⟨own, field, there, rfl, rfl⟩ | ⟨-, member | tested | filtered⟩
  · exact .inl (StageBuilder.mem_inputColumns.mpr ⟨field, List.mem_of_getElem? there, read⟩)
  · exact .inr (.inl ⟨e, member, read⟩)
  · exact .inr (.inr (.inl (by rw [tested]; exact read)))
  · exact .inr (.inr (.inr (by rw [filtered]; exact read)))

theorem IsBase.unread (base : stage.IsBase schema) (unstored : schema.isStored name ≠ true)
    (other : name ≠ bucketName) {place : Option Nat} {e : Sql.Expr}
    (placed : (place, e) ∈ stage.placed) : name ∉ e.columns := by
  intro read
  rcases clause_of_placed placed read with member | ⟨e, member, read⟩ | tested | filtered
  · exact unstored (base.fields name member)
  · exact (base.groupBy e member name read).elim unstored fun bucket => other bucket.1
  · exact unstored (base.having name tested)
  · exact unstored (base.filter name filtered)

theorem IsAbove.unread (above : stage.IsAbove below []) (absent : name ∉ below.names)
    {place : Option Nat} {e : Sql.Expr} (placed : (place, e) ∈ stage.placed) :
    name ∉ e.columns := by
  intro read
  rcases clause_of_placed placed read with member | ⟨e, member, read⟩ | tested | filtered
  · exact absent (above.fields name member)
  · exact absent (above.groupBy e member name read)
  · exact absent (above.having name tested)
  · exact (above.filter name filtered).elim absent List.not_mem_nil

theorem place_unique (one : stage.names.count name = 1) {i j : Nat} {x y : Field}
    (first : stage.fields[i]? = some x) (second : stage.fields[j]? = some y)
    (is : x.name = name) (is' : y.name = name) : i = j := by
  have named : ∀ {place : Nat} {field : Field}, stage.fields[place]? = some field →
      stage.names[place]? = some field.name := by
    intro place field there
    rw [names, List.getElem?_map, there]
    rfl
  exact index_unique_of_countP one (named first) (named second) (beq_iff_eq.mpr is)
    (beq_iff_eq.mpr is')

end Stage

end Rollup
