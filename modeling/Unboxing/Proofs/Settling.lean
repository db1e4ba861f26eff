import Mathlib.Algebra.BigOperators.Group.List.Basic
import Mathlib.Data.Finset.Card
import Mathlib.Data.List.SplitLengths
import Unboxing.Command

/-
  Settling a batch: which classes keep boxed fields is found
  in rounds, and the rounds end. What they end with needs no
  further class to stay boxed, so no class of the batch is
  left as it was for the sake of its fields. A class is unboxed
  by itself after that, so how classes are divided into listings
  does not matter.

  Main declarations:
    * `Batch.Settles`
    * `Batch.settles_settle`
    * `Batch.settle_consistent`
    * `Report.foldl_merge_eq_sum`
    * `Batch.unboxListings_eq_split`
    * `Command.unbox_as_one_batch`
-/

namespace Unboxing

open List

namespace Batch

variable {classes : List Class} {batch result next : Batch}
variable {allowed names : List ClassName} {owner : ClassName} {cls : Class}
variable {layout : ClassLayout} {method : Method}

-- Rounds

/-
  The rounds of settling without a bound: a round that keeps
  nothing more boxed is the last one.
-/
inductive Settles (classes : List Class) : Batch → Batch → Prop
  | done
      {batch : Batch}
      (hSame : batch.settleOnce classes = batch) :
      Settles classes batch batch
  | again
      {batch result : Batch}
      (hGrew : batch.settleOnce classes ≠ batch)
      (hRest : Settles classes (batch.settleOnce classes) result) :
      Settles classes batch result

/- The batch that settling ends with is not changed by another round. -/
theorem Settles.settleOnce_eq (hSettles : Settles classes batch result) :
    result.settleOnce classes = result := by
  induction hSettles with
  | done hSame => exact hSame
  | again _ _ ih => exact ih

/- Settling ends in one way only. -/
theorem Settles.unique {other : Batch} (hSettles : Settles classes batch result)
    (hOther : Settles classes batch other) :
    result = other := by
  induction hSettles with
  | done hSame =>
    cases hOther with
    | done _ => rfl
    | again hGrew _ => exact absurd hSame hGrew
  | again hGrew _ ih =>
    cases hOther with
    | done hSame => exact absurd hSame hGrew
    | again _ hRest => exact ih hRest

-- Growth

/- A batch that differs from another in some more classes that stay boxed. -/
structure Extends (allowed : List ClassName) (batch next : Batch) : Prop where
  reg : next.reg = batch.reg
  settings : next.settings = batch.settings
  kept : ∃ added, next.keptBoxed = batch.keptBoxed ++ added ∧
    ∀ name ∈ added, name ∈ allowed ∧ name ∉ batch.keptBoxed

theorem keep_cons (batch : Batch) (name : ClassName) (names : List ClassName) :
    batch.keep (name :: names) = (if batch.keptBoxed.contains name then
        batch
      else
        { batch with
          keptBoxed := batch.keptBoxed ++ [name] }).keep names := by
  unfold keep
  simp only [foldl_cons]
  split <;> rfl

/- The allowed classes of which it is open whether they stay boxed. -/
def undecided (allowed : List ClassName) (batch : Batch) : Finset ClassName :=
  allowed.toFinset \ batch.keptBoxed.toFinset

namespace Extends

theorem refl (allowed : List ClassName) (batch : Batch) : Extends allowed batch batch :=
  ⟨rfl, rfl, [], by simp, by simp⟩

theorem subset (hExtends : Extends allowed batch next) :
    batch.keptBoxed ⊆ next.keptBoxed := by
  rcases hExtends.kept with ⟨added, hKept, _⟩
  rw [hKept]
  exact subset_append_left _ _

theorem trans {last : Batch} (hFirst : Extends allowed batch next)
    (hSecond : Extends allowed next last) :
    Extends allowed batch last := by
  rcases hFirst.kept with ⟨first, hKept, hFresh⟩
  rcases hSecond.kept with ⟨second, hLast, hLater⟩
  refine ⟨hSecond.reg.trans hFirst.reg, hSecond.settings.trans hFirst.settings,
    first ++ second, by rw [hLast, hKept, append_assoc], ?_⟩
  rw [forall_mem_append]
  refine ⟨hFresh, fun name hName => ⟨(hLater name hName).1, fun hOld => ?_⟩⟩
  exact (hLater name hName).2 (hFirst.subset hOld)

theorem length_le (hExtends : Extends allowed batch next) :
    batch.keptBoxed.length ≤ next.keptBoxed.length := by
  rcases hExtends.kept with ⟨added, hKept, _⟩
  rw [hKept, length_append]
  exact Nat.le_add_right _ _

/- Nothing but the classes that stay boxed is changed. -/
theorem eq_of_length_le (hExtends : Extends allowed batch next)
    (hLength : next.keptBoxed.length ≤ batch.keptBoxed.length) :
    next = batch := by
  rcases hExtends with ⟨hRegistry, hSettings, added, hKept, _⟩
  rw [hKept, length_append] at hLength
  rw [eq_nil_of_length_eq_zero (by omega : added.length = 0), append_nil] at hKept
  rcases batch
  rcases next
  simp_all

theorem keep (batch : Batch) (hNames : names ⊆ allowed) :
    Extends allowed batch (batch.keep names) := by
  induction names generalizing batch with
  | nil => exact refl allowed batch
  | cons name names ih =>
    rw [cons_subset] at hNames
    rw [keep_cons]
    split
    · exact ih batch hNames.2
    · rename_i hAbsent
      have hFirst : Extends allowed batch
          { batch with keptBoxed := batch.keptBoxed ++ [name] } :=
        ⟨rfl, rfl, [name], rfl, forall_mem_singleton.mpr ⟨hNames.1, by simpa using hAbsent⟩⟩
      exact hFirst.trans (ih _ hNames.2)

/- Every change decides about one more class at least. -/
theorem undecided_lt (hExtends : Extends allowed batch next) (hGrew : next ≠ batch) :
    (undecided allowed next).card < (undecided allowed batch).card := by
  rcases hExtends.kept with ⟨added, hKept, hFresh⟩
  have hSome : added ≠ [] := by
    rintro rfl
    rw [append_nil] at hKept
    exact hGrew (hExtends.eq_of_length_le (Nat.le_of_eq (congrArg List.length hKept)))
  rcases exists_mem_of_ne_nil added hSome with ⟨name, hName⟩
  have hFewer : undecided allowed next ⊆ undecided allowed batch := by
    intro other hOther
    simp only [undecided, Finset.mem_sdiff, mem_toFinset] at hOther ⊢
    exact ⟨hOther.1, fun hOld => hOther.2 (hExtends.subset hOld)⟩
  apply Finset.card_lt_card
  rw [Finset.ssubset_iff_of_subset hFewer]
  exact ⟨name, by simp [undecided, hFresh name hName], by simp [undecided, hKept, hName]⟩

end Extends

theorem mem_keep (batch : Batch) (hOwner : owner ∈ names) :
    owner ∈ (batch.keep names).keptBoxed := by
  induction names generalizing batch with
  | nil => cases hOwner
  | cons name names ih =>
    rw [keep_cons]
    rcases mem_cons.mp hOwner with rfl | hTail
    · apply (Extends.keep _ (List.Subset.refl names)).subset
      split
      · rename_i hKept
        simpa using hKept
      · simp
    · exact ih _ hTail

-- What a plan needs to stay boxed

/- The owner of a payload field that an element of a body reaches. -/
theorem payloadOwner?_eq_some {reg : Registry} {node : Node}
    (hOwner : Method.payloadOwner? layout reg node = some owner) :
    ∃ access accessed, node = .insn (.field access accessed) ∧ accessed.owner = owner ∧
        reg.mentions accessed.type = true ∧ layout.storesPayloads reg owner = true := by
  unfold Method.payloadOwner? at hOwner
  split at hOwner
  · rename_i access accessed
    split at hOwner
    · rename_i hCondition
      simp only [Bool.and_eq_true] at hCondition
      cases hOwner
      exact ⟨access, accessed, rfl, rfl, hCondition⟩
    · cases hOwner
  · cases hOwner

/- A failed method takes only payload fields for boxed that it reaches. -/
theorem owners_unboxMethod (hOwner : owner ∈ (batch.unboxMethod layout method).owners) :
    owner ∈ method.payloadOwners layout batch.reg := by
  unfold unboxMethod at hOwner
  split at hOwner
  · split at hOwner
    · simp [MethodOutcome.owners] at hOwner
    · split at hOwner
      · simp [MethodOutcome.owners] at hOwner
      · exact hOwner
  · simp [MethodOutcome.owners] at hOwner

/- The layout that a plan of a class is made with. -/
abbrev layoutOf (batch : Batch) (cls : Class) : ClassLayout :=
  ClassLayout.ofClass batch.reg batch.keptBoxed cls

/- What came of the methods of a class. -/
abbrev outcomes (batch : Batch) (cls : Class) : List MethodOutcome :=
  cls.methods.map (batch.unboxMethod (batch.layoutOf cls))

/- Whether a class is left as it was because something in it fails. -/
def rollsBack (batch : Batch) (cls : Class) : Bool :=
  ((batch.outcomes cls).any MethodOutcome.isFailed
      || (batch.lacksInitializer (batch.layoutOf cls) cls
        && batch.settings.strict))
    && !(batch.layoutOf cls).payloadFields.isEmpty

theorem keepBoxed_plan (batch : Batch) (cls : Class) :
    (batch.plan cls).keepBoxed = (batch.outcomes cls).flatMap MethodOutcome.owners ++
        (if batch.rollsBack cls then [cls.name] else []) := by
  by_cases hBack : batch.rollsBack cls = true
  · simp only [hBack, if_true]
    unfold rollsBack at hBack
    simp only [plan, hBack, if_true]
  · simp only [hBack, if_false, Bool.false_eq_true, append_nil]
    unfold rollsBack at hBack
    simp only [plan, hBack, if_false, Bool.false_eq_true]

/- A class is rolled back only if its own fields hold payloads. -/
theorem storesPayloads_of_rollsBack (hBack : batch.rollsBack cls = true) :
    batch.reg.storesPayloads batch.keptBoxed cls.name = true := by
  unfold rollsBack layoutOf ClassLayout.ofClass at hBack
  simp only [Bool.and_eq_true] at hBack
  by_contra hBoxed
  simp [hBoxed] at hBack

/-
  A plan needs classes to stay boxed whose fields hold payloads:
  those that its methods reach, and the class itself.
-/
theorem of_mem_keepBoxed (hOwner : owner ∈ (batch.plan cls).keepBoxed) :
    batch.reg.storesPayloads batch.keptBoxed owner = true ∧
      owner ∈ cls.name :: cls.methods.flatMap fieldOwners := by
  rw [keepBoxed_plan, mem_append] at hOwner
  rcases hOwner with hMethod | hClass
  · rcases mem_flatMap.mp hMethod with ⟨outcome, hOutcome, hOwner⟩
    rcases mem_map.mp hOutcome with ⟨method, hMember, rfl⟩
    have hReached := owners_unboxMethod hOwner
    unfold Method.payloadOwners at hReached
    split at hReached
    · cases hReached
    · rename_i body hBody
      rcases mem_filterMap.mp hReached with ⟨node, hIn, hNode⟩
      rcases payloadOwner?_eq_some hNode with ⟨_, accessed, rfl, hName, _, hStores⟩
      refine ⟨hStores, mem_cons_of_mem _ (mem_flatMap.mpr ⟨method, hMember, ?_⟩)⟩
      simp only [fieldOwners, hBody]
      exact mem_filterMap.mpr ⟨_, hIn, congrArg some hName⟩
  · split at hClass
    · rename_i hBack
      rw [mem_singleton.mp hClass]
      exact ⟨storesPayloads_of_rollsBack hBack, mem_cons_self ..⟩
    · cases hClass

/- A class that a plan needs to stay boxed is a candidate. -/
theorem keepBoxed_subset_candidates (batch : Batch) (hClass : cls ∈ classes) :
    (batch.plan cls).keepBoxed ⊆ candidates classes :=
  fun _ hOwner => mem_flatMap.mpr ⟨cls, hClass, (of_mem_keepBoxed hOwner).2⟩

-- Rounds that end

/- A round extends a batch, whichever part of the classes it plans. -/
theorem Extends.settleOnce {all : List Class} (batch : Batch) (hClasses : classes ⊆ all) :
    Extends (candidates all) batch (batch.settleOnce classes) := by
  induction classes generalizing batch with
  | nil => exact refl _ batch
  | cons cls classes ih =>
    rw [cons_subset] at hClasses
    exact (keep batch (keepBoxed_subset_candidates batch hClasses.1)).trans (ih _ hClasses.2)

/-
  If a round changes nothing, no plan in it needed anything
  more: the batch was the same before each of them.
-/
theorem keepBoxed_subset_of_settleOnce_eq (hSame : batch.settleOnce classes = batch) :
    ∀ cls ∈ classes, (batch.plan cls).keepBoxed ⊆ batch.keptBoxed := by
  induction classes with
  | nil => simp
  | cons cls classes ih =>
    have hRound : (batch.keep (batch.plan cls).keepBoxed).settleOnce classes = batch := hSame
    have hRest := Extends.settleOnce (batch.keep (batch.plan cls).keepBoxed)
      (List.Subset.refl classes)
    rw [hRound] at hRest
    have hKeep : batch.keep (batch.plan cls).keepBoxed = batch :=
      (Extends.keep batch (List.Subset.refl _)).eq_of_length_le hRest.length_le
    rw [hKeep] at hRound
    refine forall_mem_cons.mpr ⟨fun owner hOwner => ?_, ih hRound⟩
    rw [← hKeep]
    exact mem_keep batch hOwner

/-
  The rounds end within a bound that leaves room for every
  candidate: each round but the last decides about one more.
-/
theorem settles_settleWithin {rounds : Nat}
    (hRounds : (undecided (candidates classes) batch).card < rounds) :
    Settles classes batch (batch.settleWithin classes rounds) := by
  induction rounds generalizing batch with
  | zero => cases hRounds
  | succ rounds ih =>
    have hNext := Extends.settleOnce batch (List.Subset.refl classes)
    unfold settleWithin
    simp only []
    split
    · rename_i hStop
      exact .done (hNext.eq_of_length_le (Nat.le_of_eq hStop))
    · rename_i hGrows
      have hGrew : batch.settleOnce classes ≠ batch := fun hSame => hGrows (by rw [hSame])
      have hFewer := hNext.undecided_lt hGrew
      exact .again hGrew (ih (by omega))

/- Settling ends, with what the rounds without a bound end with. -/
theorem settles_settle (batch : Batch) (classes : List Class) :
    Settles classes batch (batch.settle classes) := by
  apply settles_settleWithin
  rw [Nat.lt_succ_iff]
  exact (Finset.card_le_card Finset.sdiff_subset).trans (toFinset_card_le _)

/- Settling changes neither the mapping nor the settings. -/
theorem Settles.registry_eq (hSettles : Settles classes batch result) :
    result.reg = batch.reg ∧ result.settings = batch.settings := by
  induction hSettles with
  | done _ => exact ⟨rfl, rfl⟩
  | again _ _ ih =>
    rename_i batch result _ _
    have hExtends := Extends.settleOnce batch (List.Subset.refl classes)
    exact ⟨ih.1.trans hExtends.reg, ih.2.trans hExtends.settings⟩

-- Consistency

/- When a round changes nothing, no plan needs a class to stay boxed. -/
theorem keepBoxed_eq_nil_of_settled (hSame : batch.settleOnce classes = batch)
    (hClass : cls ∈ classes) :
    (batch.plan cls).keepBoxed = [] := by
  apply eq_nil_iff_forall_not_mem.mpr
  intro owner hOwner
  have hStores := (of_mem_keepBoxed hOwner).1
  have hKept := keepBoxed_subset_of_settleOnce_eq hSame cls hClass hOwner
  simp only [Registry.storesPayloads, Bool.and_eq_true, Bool.not_eq_true'] at hStores
  simp [hKept] at hStores

/- A plan that needs no class to stay boxed does not roll its class back. -/
theorem rollsBack_of_keepBoxed_eq_nil (hNone : (batch.plan cls).keepBoxed = []) :
    batch.rollsBack cls = false := by
  rw [keepBoxed_plan] at hNone
  by_contra hBack
  simp [hBack] at hNone

theorem classesFailed_foldl_merge (reports : List Report) (report : Report)
    (hReport : report.classesFailed = 0 ∧ report.failedClasses = [])
    (hReports : ∀ other ∈ reports, other.classesFailed = 0 ∧ other.failedClasses = []) :
    (reports.foldl Report.merge report).classesFailed = 0 ∧
      (reports.foldl Report.merge report).failedClasses = [] := by
  induction reports generalizing report with
  | nil => exact hReport
  | cons other reports ih =>
    simp only [foldl_cons]
    apply ih
    · have hOther := hReports other (mem_cons_self ..)
      simp [Report.merge, hReport, hOther]
    · exact (forall_mem_cons.mp hReports).2

/- A class that is not rolled back is not reported as failed. -/
theorem report_plan_of_not_rollsBack (hStays : batch.rollsBack cls = false) :
    (batch.plan cls).report.classesFailed = 0 ∧ (batch.plan cls).report.failedClasses = [] := by
  have hMethods := classesFailed_foldl_merge ((batch.outcomes cls).map MethodOutcome.report)
    { classesSeen := 1 } ⟨rfl, rfl⟩ (forall_mem_map.mpr fun outcome _ => by
      cases outcome <;> exact ⟨rfl, rfl⟩)
  unfold rollsBack at hStays
  simp only [plan, hStays, if_false, Bool.false_eq_true]
  exact hMethods

/-
  A method that fails while it reaches a payload field of a
  class needs that class to stay boxed.
-/
theorem mem_keepBoxed_of_failure
    {body : Body} {failure : Failure} {access : FieldAccess} {accessed : FieldRef}
    (hMethod : method ∈ cls.methods) (hBody : method.body = some body)
    (hFails : method.unbox batch.reg batch.settings
      (batch.layoutOf cls) body = .error failure)
    (hAccess : .insn (.field access accessed) ∈ body.nodes)
    (hMentions : batch.reg.mentions accessed.type = true)
    (hStores :
      batch.reg.storesPayloads batch.keptBoxed accessed.owner = true) :
    accessed.owner ∈ (batch.plan cls).keepBoxed := by
  have hConcerned :
      method.isConcerned (batch.layoutOf cls) batch.reg = true := by
    simp only [Method.isConcerned, hBody, Bool.or_eq_true]
    exact Or.inr (any_eq_true.mpr ⟨_, hAccess, hMentions⟩)
  have hOwner :
      Method.payloadOwner? (batch.layoutOf cls) batch.reg
        (.insn (.field access accessed)) = some accessed.owner := by
    have hLayout :
        (batch.layoutOf cls).storesPayloads batch.reg
          accessed.owner = true := hStores
    simp [Method.payloadOwner?, hMentions, hLayout]
  rw [keepBoxed_plan]
  apply mem_append_left
  apply mem_flatMap.mpr
  refine ⟨_, mem_map_of_mem hMethod, ?_⟩
  simp only [unboxMethod, hConcerned, if_true, hBody, hFails,
    MethodOutcome.owners, Method.payloadOwners]
  exact mem_filterMap.mpr ⟨_, hAccess, hOwner⟩

/-
  Settling a batch ends, and what it ends with is consistent:
  no plan needs another class to stay boxed, no method that
  fails reaches a payload field, and no class is rolled back.
-/
theorem settle_consistent
    (batch : Batch)
    (classes : List Class) :
    let settled := batch.settle classes
    (∀ result, Settles classes batch result ↔ result = settled) ∧
      (settled.reg = batch.reg ∧ settled.settings = batch.settings) ∧ (∀ cls ∈ classes,
        (settled.plan cls).keepBoxed = [] ∧ (settled.plan cls).report.classesFailed = 0) ∧
      (∀ cls ∈ classes, ∀ method ∈ cls.methods, ∀ body failure, method.body = some body →
          method.unbox settled.reg settled.settings
            (settled.layoutOf cls) body = .error failure →
          ∀ access accessed, .insn (.field access accessed) ∈ body.nodes →
            settled.reg.mentions accessed.type = true →
            settled.reg.storesPayloads settled.keptBoxed
              accessed.owner = false) ∧
      (batch.unboxAll classes).2.2.classesFailed = 0 ∧
      (batch.unboxAll classes).2.2.failedClasses = [] := by
  intro settled
  have hSettles : Settles classes batch settled :=
    settles_settle batch classes
  have hSame : settled.settleOnce classes = settled :=
    hSettles.settleOnce_eq
  have hNone : ∀ cls ∈ classes, (settled.plan cls).keepBoxed = [] :=
    fun cls hClass => keepBoxed_eq_nil_of_settled hSame hClass
  have hReports : ∀ cls ∈ classes, (settled.plan cls).report.classesFailed = 0 ∧
        (settled.plan cls).report.failedClasses = [] :=
    fun cls hClass => report_plan_of_not_rollsBack
      (rollsBack_of_keepBoxed_eq_nil (hNone cls hClass))
  have hMerged :=
    classesFailed_foldl_merge
      (classes.map fun cls => (settled.plan cls).report)
      .empty ⟨rfl, rfl⟩ (forall_mem_map.mpr hReports)
  have hEach :
      (batch.unboxAll classes).2.2 = (classes.map fun cls => (settled.plan cls).report).foldl
          Report.merge .empty := by
    simp only [unboxAll, unboxEach, map_map]
    rfl
  refine ⟨?_, hSettles.registry_eq, ?_, ?_, ?_, ?_⟩
  · intro result
    exact ⟨fun hResult => hResult.unique hSettles, fun hResult => hResult ▸ hSettles⟩
  · exact fun cls hClass => ⟨hNone cls hClass, (hReports cls hClass).1⟩
  · intro cls hClass method hMethod body failure hBody hFails access
      accessed hAccess hMentions
    by_contra hStores
    have hKept := mem_keepBoxed_of_failure hMethod hBody hFails hAccess
      hMentions (by simpa using hStores)
    rw [hNone cls hClass] at hKept
    cases hKept
  · rw [hEach]
    exact hMerged.1
  · rw [hEach]
    exact hMerged.2

-- A batch that keeps a class boxed

def moneyName : ClassName := ⟨"Money", by decide⟩

/- A mapping with one value class, whose null is not the payload zero. -/
def ledgerMapping : Mapping where
  scope := ["Ledger"]
  suppress := []
  strict := false
  valueClasses :=
    [ ⟨"Money", -1, "Ops.box(J)LMoney;", "Ops.unbox(LMoney;)J", none, none,
        "Ops.isNull(J)Z", "Ops.same(JJ)Z", []⟩ ]
  genericMethods := []

def accountName : ClassName := ⟨"Account", by decide⟩

def balanceName : MemberName := ⟨"balance", by decide⟩

/- A method of the value class that works on its payloads. -/
def moneyMethod (parameters : List FieldType) (result : FieldType) : MethodRef :=
  ⟨moneyName, ⟨"convert", by decide⟩, parameters, some result⟩

/- The value class, whose null is the payload zero. -/
def moneyClass : ValueClass where
  name := moneyName
  nullValue := 0
  box := moneyMethod [.base .long] (.object moneyName)
  unbox := moneyMethod [.object moneyName] (.base .long)
  arrayBox := none
  arrayUnbox := none
  isNull := moneyMethod [.base .long] (.base .boolean)
  identityEquals := moneyMethod [.base .long, .base .long] (.base .boolean)

def balanceField : FieldRef :=
  ⟨accountName, balanceName, .object moneyName⟩

/- A body that reads the field and has a handler, which is not supported. -/
def guardedBody : Body where
  maxStack := 1
  maxLocals := 1
  nodes :=
    [ .label ⟨0⟩, .insn (.load .reference 0), .insn (.field .getField balanceField),
      .branch (.ret (some .reference)), .label ⟨1⟩ ]
  vars := []
  handlers := [⟨⟨0⟩, ⟨1⟩, ⟨1⟩, none⟩]

def guardedMethod : Method :=
  ⟨balanceName, ⟨[], some (.object moneyName)⟩, 0, some guardedBody⟩

def accountClass : Class :=
  ⟨accountName, 0, none, [⟨balanceName, .object moneyName, 0⟩], [guardedMethod]⟩

def accountBatch : Batch :=
  .new ⟨[moneyClass], [], ["Account"]⟩ ⟨[], false⟩

/- The class is kept boxed, since its method fails. -/
example :
    (accountBatch.settle [accountClass]).keptBoxed = [accountName] := by
  decide

/-
  At first the method that fails reaches a payload field and
  its class would be rolled back. After settling it reaches a
  boxed field, and no class is rolled back.
-/
theorem settle_consistent_account :
    accountBatch.reg.storesPayloads accountBatch.keptBoxed
        balanceField.owner = true ∧
      (accountBatch.plan accountClass).report.classesFailed = 1 ∧
      ((accountBatch.settle [accountClass]).plan accountClass).keepBoxed = [] ∧
      (accountBatch.settle [accountClass]).reg.storesPayloads
        (accountBatch.settle [accountClass]).keptBoxed
        balanceField.owner = false ∧
      (accountBatch.unboxAll [accountClass]).2.2.classesFailed = 0 := by
  have hAll := settle_consistent accountBatch [accountClass]
  refine ⟨by decide, by decide, ?_, ?_, hAll.2.2.2.2.1⟩
  · exact (hAll.2.2.1 accountClass (by decide)).1
  · exact hAll.2.2.2.1 accountClass (by decide) guardedMethod (by decide)
      guardedBody ⟨"Account.balance()LMoney;", none, .unsupportedHandlers⟩
      rfl (by decide) .getField balanceField (by decide) (by decide)

end Batch

-- Reports add up

namespace Report

theorem merge_assoc (first second third : Report) :
    (first.merge second).merge third = first.merge (second.merge third) := by
  simp only [merge, Nat.add_assoc, append_assoc]

theorem empty_merge (report : Report) : Report.empty.merge report = report := by
  simp [merge, empty]

theorem merge_empty (report : Report) : report.merge .empty = report := by
  simp [merge, empty]

/- Merging is an addition that keeps the order of what was found. -/
instance : Add Report :=
  ⟨merge⟩

instance : Zero Report :=
  ⟨.empty⟩

instance : AddMonoid Report where
  add_assoc := merge_assoc
  zero_add := empty_merge
  add_zero := merge_empty
  nsmul := nsmulRec

theorem foldl_merge_eq_sum (reports : List Report) :
    reports.foldl merge .empty = reports.sum :=
  sum_eq_foldl.symm

end Report

-- Listings and their classes

namespace Batch

/- Lists are found again by their lengths. -/
theorem splitLengths_flatten {α : Type} (lists : List (List α)) :
    (lists.map List.length).splitLengths lists.flatten = lists := by
  induction lists with
  | nil => rfl
  | cons first rest ih =>
    rw [map_cons, splitLengths_cons, flatten_cons,
      take_left, drop_left, ih]

variable (batch : Batch)
variable (listings : List (List Class))

theorem length_unboxEach (classes : List Class) :
    (batch.unboxEach classes).1.length = classes.length := by
  simp only [unboxEach, length_map]

/- Unboxing classes listing by listing, when it is settled what stays boxed. -/
theorem unboxEach_flatten :
    batch.unboxEach listings.flatten = ((listings.map batch.unboxEach).map Prod.fst |>.flatten,
        ((listings.map batch.unboxEach).map Prod.snd).sum) := by
  have hEach : batch.unboxEach = fun classes =>
      ((classes.map batch.unboxClass).map Prod.fst,
        ((classes.map batch.unboxClass).map Prod.snd).sum) := by
    funext classes
    simp only [unboxEach, Report.foldl_merge_eq_sum]
  simp only [hEach, map_flatten, sum_flatten, map_map, Function.comp_def]

/- The listings are the classes of the one batch, divided as before. -/
theorem unboxListings_eq_split :
    batch.unboxListings listings =
      ((listings.map List.length).splitLengths (batch.unboxAll listings.flatten).2.1,
        (batch.unboxAll listings.flatten).2.2) := by
  let settled := batch.settle listings.flatten
  have hEach := settled.unboxEach_flatten listings
  have hLengths :
      ((listings.map settled.unboxEach).map Prod.fst).map List.length =
        listings.map List.length := by
    simp only [map_map]
    apply map_congr_left
    intro listing _
    exact settled.length_unboxEach listing
  have hClasses :
      (batch.unboxAll listings.flatten).2.1 =
        ((listings.map settled.unboxEach).map Prod.fst).flatten :=
    congrArg Prod.fst hEach
  have hReport :
      (batch.unboxAll listings.flatten).2.2 = ((listings.map settled.unboxEach).map Prod.snd).sum :=
    congrArg Prod.snd hEach
  rw [hClasses, hReport, ← hLengths, splitLengths_flatten]
  simp only [unboxListings, Report.foldl_merge_eq_sum]
  rfl

theorem length_unboxAll (classes : List Class) :
    (batch.unboxAll classes).2.1.length = classes.length :=
  (batch.settle classes).length_unboxEach classes

end Batch

-- The command

namespace Command

variable {m : Type → Type} [Monad m]

/-
  Read a mapping and listings, unbox the classes of all of them
  as one batch, and put them into listings as they were.
-/
def unboxTogether (files : Files m) (toBatch : String → Except MappingError Batch)
    (mapping : String) (paths : List String) (output : Option String) : OptionT m Outcome := do
  let text ← OptionT.mk (files.read mapping)
  match toBatch text with
  | .error _ => failure
  | .ok batch =>
    output.forM fun directory => OptionT.mk (files.makeDirectory directory)
    let listings ← paths.mapM (readListing files)
    let (_, classes, report) := batch.unboxAll listings.flatten
    let divided := (listings.map List.length).splitLengths classes
    let texts := divided.map Listing.renderClasses
    match output with
    | some directory =>
      writeListings files directory paths texts
      return ⟨0, "", some report.render⟩
    | none => return ⟨0, String.join texts, some report.render⟩

/-
  However the classes are divided, the listings hold the same
  classes in the same order as when they are one batch, and the
  report is the same. So the command prints, writes and reports
  the same, however it understands a mapping.
-/
theorem unbox_as_one_batch
    (files : Files m)
    (toBatch : String → Except MappingError Batch)
    (mapping : String)
    (paths : List String)
    (output : Option String) :
    (∀ (batch : Batch) (listings : List (List Class)), (batch.unboxListings listings).1.flatten =
          (batch.unboxAll listings.flatten).2.1 ∧
        (batch.unboxListings listings).1.map List.length = listings.map List.length ∧
        (batch.unboxListings listings).2 = (batch.unboxAll listings.flatten).2.2) ∧
      unbox files toBatch mapping paths output =
        unboxTogether files toBatch mapping paths output := by
  constructor
  · intro batch listings
    have hLength := batch.length_unboxAll listings.flatten
    rw [length_flatten] at hLength
    rw [batch.unboxListings_eq_split listings]
    refine ⟨flatten_splitLengths _ _ hLength.le,
      map_splitLengths_length _ _ hLength.ge, rfl⟩
  · conv_lhs => simp only [unbox, Batch.unboxListings_eq_split]
    rfl

end Command

end Unboxing
