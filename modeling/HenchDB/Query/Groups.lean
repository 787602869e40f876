import HenchDB.Query.Memo

/-!
# The groups of a memo

Every group of a memo that `optimizeSelectMemo` builds has a set of tables, and
its operators agree with it (`Memo.Ok`): a join splits the set in two, and the
other operators pass on the set of a group that is older.  Each rule lets a memo
grow into one that is well formed again (`Memo.Grows`).

So inputs decrease (`Memo.rank`), no group is below itself, and a plan scans the
tables of its group once each (`memo_plans`).
-/

namespace HenchDB.Optimizer

/-! ## Groups have their tables -/

/-- The tables are those of two groups together. -/
def Splits (at_ : GroupId → Option (List Nat)) (tables : List Nat) (l r : GroupId) : Prop :=
  ∃ tl tr, at_ l = some tl ∧ at_ r = some tr ∧ (tl ++ tr).Perm tables

/-- The operator agrees with the tables of its group. -/
def LogicalOk (at_ : GroupId → Option (List Nat)) (g : GroupId) (tables : List Nat) : LogicalOp → Prop
  | .scan i _ => tables = [i]
  | .join l r _ _ => Splits at_ tables l r
  | .filter input _ | .aggregate input _ _ => input < g ∧ at_ input = some tables

def PhysicalOk (ctx : Context) (at_ : GroupId → Option (List Nat)) (g : GroupId) (tables : List Nat) :
    PhysicalOp → Prop
  | .tableScan i | .indexScan i _ | .batchScan i _ => tables = [i] ∧ i < ctx.tables.length
  | .hashJoin l r _ _ _ | .nestedLoopJoin l r _ _ => Splits at_ tables l r
  | .batchAggregate input _ _ | .scalarAggregate input _ _ => input < g ∧ at_ input = some tables

structure GroupOk (ctx : Context) (at_ : GroupId → Option (List Nat)) (g : GroupId) (grp : Group) :
    Prop where
  nodup : grp.props.tables.Nodup
  nonempty : grp.props.tables ≠ []
  logical : ∀ op ∈ grp.logicalExprs, LogicalOk at_ g grp.props.tables op
  physical : ∀ p ∈ grp.physicalExprs, PhysicalOk ctx at_ g grp.props.tables p.op
  best : ∀ b, grp.bestPlan = some b → b.physicalIdx < grp.physicalExprs.length

def Memo.tablesAt (m : Memo) (g : GroupId) : Option (List Nat) :=
  m.groups[g]?.map fun grp => grp.props.tables

/-- The memo is well formed. -/
structure Memo.Ok (ctx : Context) (m : Memo) : Prop where
  groups : ∀ g grp, m.groups[g]? = some grp → GroupOk ctx m.tablesAt g grp
  exprs : ∀ e ∈ m.exprToGroup, ∃ grp, m.groups[e.2]? = some grp ∧ e.1 ∈ grp.logicalExprs

/-- What becomes of a group: its properties stay, and no operator is lost. -/
structure Group.Le (grp grp' : Group) : Prop where
  props : grp'.props = grp.props
  logical : grp.logicalExprs ⊆ grp'.logicalExprs
  physical : grp.physicalExprs.length ≤ grp'.physicalExprs.length

/-- The memo has become another one, which is well formed. -/
structure Memo.Grows (ctx : Context) (m m' : Memo) : Prop where
  ok : m'.Ok ctx
  le : ∀ (g : GroupId) (grp : Group), m.groups[g]? = some grp →
    ∃ grp', m'.groups[g]? = some grp' ∧ grp.Le grp'

variable {ctx : Context} {m m' m'' : Memo} {g l r : GroupId} {tables tl tr : List Nat} {grp : Group}
  {at_ at' : GroupId → Option (List Nat)}

theorem Splits.mono (hat : ∀ g t, at_ g = some t → at' g = some t) :
    Splits at_ tables l r → Splits at' tables l r
  | ⟨tl, tr, hl, hr, hperm⟩ => ⟨tl, tr, hat l tl hl, hat r tr hr, hperm⟩

theorem LogicalOk.mono (hat : ∀ g t, at_ g = some t → at' g = some t) :
    ∀ {op}, LogicalOk at_ g tables op → LogicalOk at' g tables op
  | .scan _ _, h => h
  | .join _ _ _ _, h => Splits.mono hat h
  | .filter _ _, h | .aggregate _ _ _, h => ⟨h.1, hat _ _ h.2⟩

theorem PhysicalOk.mono (hat : ∀ g t, at_ g = some t → at' g = some t) :
    ∀ {op}, PhysicalOk ctx at_ g tables op → PhysicalOk ctx at' g tables op
  | .tableScan _, h | .indexScan _ _, h | .batchScan _ _, h => h
  | .hashJoin _ _ _ _ _, h | .nestedLoopJoin _ _ _ _, h => Splits.mono hat h
  | .batchAggregate _ _ _, h | .scalarAggregate _ _ _, h => ⟨h.1, hat _ _ h.2⟩

theorem GroupOk.mono (hat : ∀ g t, at_ g = some t → at' g = some t) (h : GroupOk ctx at_ g grp) :
    GroupOk ctx at' g grp :=
  ⟨h.nodup, h.nonempty, fun op hop => (h.logical op hop).mono hat,
    fun p hp => (h.physical p hp).mono hat, h.best⟩

/-- Operators that are equal have the same inputs. -/
theorem LogicalOk.of_eq {same : Equality} : ∀ {op op' : LogicalOp}, op.eq same op' = true →
    LogicalOk at_ g tables op → LogicalOk at_ g tables op'
  | .scan _ _, .scan _ _, heq, h => by
    simp only [LogicalOp.eq, Bool.and_eq_true, decide_eq_true_eq] at heq
    exact heq.1 ▸ h
  | .filter _ _, .filter _ _, heq, h => by
    simp only [LogicalOp.eq, Bool.and_eq_true, decide_eq_true_eq] at heq
    exact heq.1 ▸ h
  | .join _ _ _ _, .join _ _ _ _, heq, h => by
    simp only [LogicalOp.eq, Bool.and_eq_true, decide_eq_true_eq] at heq
    obtain ⟨⟨⟨rfl, rfl⟩, -⟩, -⟩ := heq
    exact h
  | .aggregate _ _ _, .aggregate _ _ _, heq, h => by
    simp only [LogicalOp.eq, Bool.and_eq_true, decide_eq_true_eq] at heq
    obtain ⟨⟨rfl, -⟩, -⟩ := heq
    exact h

namespace Memo

theorem tablesAt_eq_some : m.tablesAt g = some tables ↔
    ∃ grp, m.groups[g]? = some grp ∧ grp.props.tables = tables :=
  Option.map_eq_some_iff

theorem group_eq (h : m.groups[g]? = some grp) : m.group g = grp := by
  rw [group, List.getD_eq_getElem?_getD, h, Option.getD_some]

namespace Grows

theorem refl (h : m.Ok ctx) : Grows ctx m m :=
  ⟨h, fun _ grp hg => ⟨grp, hg, rfl, List.Subset.refl _, le_rfl⟩⟩

theorem trans (h : Grows ctx m m') (h' : Grows ctx m' m'') : Grows ctx m m'' :=
  ⟨h'.ok, fun g grp hg => by
    obtain ⟨grp', hg', hle⟩ := h.le g grp hg
    obtain ⟨grp'', hg'', hle'⟩ := h'.le g grp' hg'
    exact ⟨grp'', hg'', hle'.props.trans hle.props, List.Subset.trans hle.logical hle'.logical,
      hle.physical.trans hle'.physical⟩⟩

theorem tablesAt (h : Grows ctx m m') (g : GroupId) (t : List Nat) (hg : m.tablesAt g = some t) :
    m'.tablesAt g = some t := by
  obtain ⟨grp, hgrp, rfl⟩ := tablesAt_eq_some.mp hg
  obtain ⟨grp', hgrp', hle⟩ := h.le g grp hgrp
  exact tablesAt_eq_some.mpr ⟨grp', hgrp', by rw [hle.props]⟩

end Grows

/-- A loop each round of which lets the memo grow. -/
theorem foldl_grows {σ α : Type} {v : σ → Memo} {f : σ → α → σ} : ∀ {l : List α} {s : σ},
    (v s).Ok ctx →
    (∀ s', Grows ctx (v s) (v s') → ∀ a ∈ l, Grows ctx (v s') (v (f s' a))) →
    Grows ctx (v s) (v (l.foldl f s))
  | [], _, h, _ => .refl h
  | a :: l, s, h, hstep => by
    have hfirst := hstep s (.refl h) a List.mem_cons_self
    exact hfirst.trans (foldl_grows hfirst.ok fun s' hs' b hb =>
      hstep s' (hfirst.trans hs') b (List.mem_cons_of_mem a hb))

/-- A change of one group. -/
theorem modify_grows {f : Group → Group} {table : List (LogicalOp × GroupId)} (h : m.Ok ctx)
    (hf : ∀ grp, m.groups[g]? = some grp → grp.Le (f grp) ∧ GroupOk ctx m.tablesAt g (f grp))
    (htable : ∀ e ∈ table, e ∈ m.exprToGroup ∨
      e.2 = g ∧ ∃ grp, m.groups[g]? = some grp ∧ e.1 ∈ (f grp).logicalExprs) :
    Grows ctx m ⟨m.groups.modify g f, table⟩ := by
  have hget : ∀ j, (m.groups.modify g f)[j]? = m.groups[j]?.map fun a => if g = j then f a else a :=
    fun j => List.getElem?_modify ..
  have hle : ∀ (j : GroupId) (grp : Group), m.groups[j]? = some grp →
      ∃ grp', (m.groups.modify g f)[j]? = some grp' ∧ grp.Le grp' := by
    intro j grp hj
    rw [hget, hj]
    refine ⟨_, rfl, ?_⟩
    split
    · next heq => exact (hf grp (heq ▸ hj)).1
    · exact ⟨rfl, List.Subset.refl _, le_rfl⟩
  have hat : ∀ j t, m.tablesAt j = some t →
      tablesAt ⟨m.groups.modify g f, table⟩ j = some t := by
    intro j t hj
    obtain ⟨grp, hgrp, rfl⟩ := tablesAt_eq_some.mp hj
    obtain ⟨grp', hgrp', hprops, -, -⟩ := hle j grp hgrp
    exact tablesAt_eq_some.mpr ⟨grp', hgrp', by rw [hprops]⟩
  refine ⟨⟨fun j grp' hj => ?_, fun e he => ?_⟩, hle⟩
  · obtain ⟨grp, hgrp, rfl⟩ := Option.map_eq_some_iff.mp ((hget j).symm.trans hj)
    split
    · next heq => exact heq ▸ (hf grp (heq ▸ hgrp)).2.mono hat
    · exact (h.groups j grp hgrp).mono hat
  · rcases htable e he with hold | ⟨rfl, grp, hgrp, hmem⟩
    · obtain ⟨grp, hgrp, hmem⟩ := h.exprs e hold
      obtain ⟨grp', hgrp', hle'⟩ := hle e.2 grp hgrp
      exact ⟨grp', hgrp', hle'.logical hmem⟩
    · exact ⟨f grp, by rw [hget, hgrp, Option.map_some, if_pos rfl], hmem⟩

section

variable (h : m.Ok ctx) (hg : m.tablesAt g = some tables)
include h hg

theorem addLogicalToGroup_grows (op : LogicalOp) (hop : LogicalOk m.tablesAt g tables op) :
    Grows ctx m (m.addLogicalToGroup ctx g op) := by
  rw [addLogicalToGroup]
  split
  · exact .refl h
  · obtain ⟨grp₀, hgrp₀, rfl⟩ := tablesAt_eq_some.mp hg
    refine modify_grows h (fun grp hgrp => ?_) fun e he => ?_
    · cases hgrp₀.symm.trans hgrp
      have hok := h.groups g _ hgrp
      refine ⟨⟨rfl, List.subset_append_left _ _, le_rfl⟩, { hok with logical := fun op' hop' => ?_ }⟩
      rcases List.mem_append.mp hop' with hold | hnew
      · exact hok.logical op' hold
      · cases List.mem_singleton.mp hnew
        exact hop
    · rcases List.mem_cons.mp he with rfl | hold
      · exact .inr ⟨rfl, grp₀, hgrp₀, List.mem_append_right _ List.mem_cons_self⟩
      · exact .inl hold

theorem addPhysicalToGroup_grows (op : PhysicalOp) (hop : PhysicalOk ctx m.tablesAt g tables op)
    (cost : Float) :
    Grows ctx m (m.addPhysicalToGroup ctx g op cost) := by
  rw [addPhysicalToGroup]
  split
  · exact .refl h
  · obtain ⟨grp₀, hgrp₀, rfl⟩ := tablesAt_eq_some.mp hg
    refine modify_grows h (fun grp hgrp => ?_) fun e he => .inl he
    cases hgrp₀.symm.trans hgrp
    have hok := h.groups g _ hgrp
    refine ⟨⟨rfl, List.Subset.refl _, by simp⟩,
      { hok with physical := fun p hp => ?_, best := fun b hb => ?_ }⟩
    · rcases List.mem_append.mp hp with hold | hnew
      · exact hok.physical p hold
      · cases List.mem_singleton.mp hnew
        exact hop
    · have := hok.best b hb
      simp only [List.length_append]
      omega

/-- A loop over the operators of a group. -/
theorem foldl_ops {f : Memo → LogicalOp → Memo}
    (hstep : ∀ m', Grows ctx m m' → ∀ op, LogicalOk m'.tablesAt g tables op → Grows ctx m' (f m' op)) :
    Grows ctx m ((m.group g).logicalExprs.foldl f m) := by
  obtain ⟨grp, hgrp, rfl⟩ := tablesAt_eq_some.mp hg
  rw [group_eq hgrp]
  exact foldl_grows (v := id) h fun m' hm' op hop =>
    hstep m' hm' op (((h.groups g grp hgrp).logical op hop).mono hm'.tablesAt)

theorem nodup_of_tablesAt : tables.Nodup := by
  obtain ⟨grp, hgrp, rfl⟩ := tablesAt_eq_some.mp hg
  exact (h.groups g grp hgrp).nodup

end

/-- What an operator needs to be inserted. -/
def Insertable (m : Memo) : LogicalOp → Prop
  | .scan _ _ => True
  | .join l r _ _ => ∃ tl tr, m.tablesAt l = some tl ∧ m.tablesAt r = some tr ∧ tl.Disjoint tr
  | .filter input _ | .aggregate input _ _ => (m.tablesAt input).isSome

theorem foldl_push : ∀ {r ts : List Nat}, (ts ++ r).Nodup →
    r.foldl (fun ts t => if t ∈ ts then ts else ts ++ [t]) ts = ts ++ r
  | [], ts, _ => (List.append_nil ts).symm
  | t :: r, ts, h => by
    have hnew : t ∉ ts := fun hmem => List.disjoint_of_nodup_append h hmem List.mem_cons_self
    rw [List.foldl_cons, if_neg hnew, foldl_push (by rwa [List.append_assoc]), List.append_assoc]
    rfl

/-- A group for an operator has tables that agree with it. -/
theorem deriveLogicalProps_ok (h : m.Ok ctx) : ∀ {op}, m.Insertable op →
    LogicalOk m.tablesAt m.groups.length (m.deriveLogicalProps ctx op).tables op ∧
      (m.deriveLogicalProps ctx op).tables.Nodup ∧ (m.deriveLogicalProps ctx op).tables ≠ []
  | .scan i _, _ => ⟨rfl, List.nodup_singleton i, List.cons_ne_nil i []⟩
  | .filter input _, hop | .aggregate input _ _, hop => by
    obtain ⟨tables, htables⟩ := Option.isSome_iff_exists.mp hop
    obtain ⟨grp, hgrp, rfl⟩ := tablesAt_eq_some.mp htables
    have hok := h.groups input grp hgrp
    rw [deriveLogicalProps, group_eq hgrp]
    exact ⟨⟨(List.getElem?_eq_some_iff.mp hgrp).1, htables⟩, hok.nodup, hok.nonempty⟩
  | .join l r _ _, ⟨tl, tr, hl, hr, hdisjoint⟩ => by
    obtain ⟨gl, hgl, rfl⟩ := tablesAt_eq_some.mp hl
    obtain ⟨gr, hgr, rfl⟩ := tablesAt_eq_some.mp hr
    have hnodup := (h.groups l gl hgl).nodup.append (h.groups r gr hgr).nodup hdisjoint
    rw [deriveLogicalProps, group_eq hgl, group_eq hgr, foldl_push hnodup]
    have hperm := (List.mergeSort_perm (gl.props.tables ++ gr.props.tables) fun a b => a ≤ b).symm
    refine ⟨⟨_, _, hl, hr, hperm⟩, hperm.nodup_iff.mp hnodup, fun hnil => ?_⟩
    have hempty := hperm.trans (.of_eq hnil)
    exact (h.groups l gl hgl).nonempty (List.append_eq_nil_iff.mp hempty.eq_nil).1

/-- The group of an operator, found or new, agrees with it. -/
theorem insertLogical_grows (h : m.Ok ctx) (op : LogicalOp) (hop : m.Insertable op) :
    Grows ctx m (m.insertLogical ctx op).2 ∧ ∃ tables,
      (m.insertLogical ctx op).2.tablesAt (m.insertLogical ctx op).1 = some tables ∧
      LogicalOk (m.insertLogical ctx op).2.tablesAt (m.insertLogical ctx op).1 tables op := by
  rw [insertLogical]
  split
  · next e he =>
    obtain ⟨grp, hgrp, hmem⟩ := h.exprs e (List.mem_of_find?_eq_some he)
    have heq : e.1.eq ctx.same op = true := by simpa using List.find?_some he
    exact ⟨.refl h, grp.props.tables, tablesAt_eq_some.mpr ⟨grp, hgrp, rfl⟩,
      ((h.groups e.2 grp hgrp).logical e.1 hmem).of_eq heq⟩
  · obtain ⟨hlogical, hnodup, hnonempty⟩ := deriveLogicalProps_ok h hop
    generalize m.deriveLogicalProps ctx op = props at *
    have hold : ∀ (j : GroupId) (grp : Group), m.groups[j]? = some grp →
        (m.groups ++ [⟨[op], [], props, none, false⟩])[j]? = some grp := fun j grp hj => by
      rw [List.getElem?_append_left (List.getElem?_eq_some_iff.mp hj).1, hj]
    have hnew : (m.groups ++ [⟨[op], [], props, none, false⟩])[m.groups.length]? =
        some (⟨[op], [], props, none, false⟩ : Group) := List.getElem?_concat_length
    have hat : ∀ j t, m.tablesAt j = some t → tablesAt
        ⟨m.groups ++ [⟨[op], [], props, none, false⟩], (op, m.groups.length) :: m.exprToGroup⟩ j =
          some t := fun j t hj => by
      obtain ⟨grp, hgrp, rfl⟩ := tablesAt_eq_some.mp hj
      exact tablesAt_eq_some.mpr ⟨grp, hold j grp hgrp, rfl⟩
    refine ⟨⟨⟨fun j grp hj => ?_, fun e he => ?_⟩, fun j grp hj =>
      ⟨grp, hold j grp hj, rfl, List.Subset.refl _, le_rfl⟩⟩, props.tables,
      tablesAt_eq_some.mpr ⟨_, hnew, rfl⟩, hlogical.mono hat⟩
    · rcases Nat.lt_or_ge j m.groups.length with hlt | hge
      · exact (h.groups j grp ((List.getElem?_append_left hlt).symm.trans hj)).mono hat
      · have hlen := (List.getElem?_eq_some_iff.mp hj).1
        rw [List.length_append, List.length_singleton] at hlen
        obtain rfl : j = m.groups.length := Nat.le_antisymm (Nat.lt_succ_iff.mp hlen) hge
        cases hnew.symm.trans hj
        refine ⟨hnodup, hnonempty, fun op' hop' => ?_, fun p hp => (List.not_mem_nil hp).elim,
          fun b hb => by cases hb⟩
        cases List.mem_singleton.mp hop'
        exact hlogical.mono hat
    · rcases List.mem_cons.mp he with rfl | hmem
      · exact ⟨_, hnew, List.mem_cons_self⟩
      · obtain ⟨grp, hgrp, hin⟩ := h.exprs e hmem
        exact ⟨grp, hold e.2 grp hgrp, hin⟩

/-! ## The rules keep the memo well formed -/

theorem pushInto_grows (h : m.Ok ctx) (hl : m.tablesAt l = some tl) (conjuncts : List Expr) :
    Grows ctx m (m.pushInto ctx l conjuncts).2 ∧
      (m.pushInto ctx l conjuncts).2.tablesAt (m.pushInto ctx l conjuncts).1 = some tl := by
  rw [pushInto]
  split
  · exact ⟨.refl h, hl⟩
  · next p _ =>
    obtain ⟨hgrows, t, ht, -, hinput⟩ := insertLogical_grows h (.filter l p) (by
      rw [Insertable, hl]
      rfl)
    cases (hgrows.tablesAt l tl hl).symm.trans hinput
    exact ⟨hgrows, ht⟩

theorem addScans_grows (h : m.Ok ctx) {i : Nat} (hg : m.tablesAt g = some [i])
    (hi : i < ctx.tables.length) (tm : TableMeta) (pushed : Option Expr) :
    Grows ctx m (m.addScans ctx g i tm pushed) := by
  have hscan := addPhysicalToGroup_grows h hg (.tableScan i) ⟨rfl, hi⟩ (fullScanCost tm.totalRows)
  simp only [addScans]
  split
  · exact hscan
  · exact hscan.trans
      (addPhysicalToGroup_grows hscan.ok (hscan.tablesAt g [i] hg) (.batchScan i pushed) ⟨rfl, hi⟩ _)

theorem addIndexScan_grows (h : m.Ok ctx) {i : Nat} (hg : m.tablesAt g = some [i])
    (hi : i < ctx.tables.length) (tm : TableMeta) (predicate : Expr) :
    Grows ctx m (m.addIndexScan ctx g i tm predicate) := by
  have hadd : ∀ path cost, Grows ctx m (m.addPhysicalToGroup ctx g (.indexScan i path) cost) :=
    fun path cost => addPhysicalToGroup_grows h hg (.indexScan i path) ⟨rfl, hi⟩ cost
  simp only [addIndexScan]
  split
  · exact hadd _ _
  · exact hadd _ _
  · exact hadd _ _
  · split
    · exact hadd _ _
    · exact .refl h
  · split
    · exact hadd _ _
    · exact .refl h
  · exact .refl h

section

variable (h : m.Ok ctx) (hg : m.tablesAt g = some tables)
include h hg

theorem associate_grows (hr : m.tablesAt r = some tr) (hperm : (tl ++ tr).Perm tables)
    {on : Option Expr} : ∀ {op}, LogicalOk m.tablesAt l tl op →
      Grows ctx m (associate ctx g r on m op)
  | .join a b onAb .inner, ⟨ta, tb, ha, hb, hab⟩ => by
    have hnodup : (ta ++ (tb ++ tr)).Nodup := by
      rw [← List.append_assoc]
      exact ((hab.append_right tr).trans hperm).nodup_iff.mpr (nodup_of_tablesAt h hg)
    obtain ⟨hgrows, t, ht, tb', tr', hb', hr', hsub⟩ := insertLogical_grows h
      (.join b r on .inner) ⟨tb, tr, hb, hr,
        List.disjoint_of_nodup_append (List.nodup_append'.mp hnodup).2.1⟩
    cases (hgrows.tablesAt b tb hb).symm.trans hb'
    cases (hgrows.tablesAt r tr hr).symm.trans hr'
    refine hgrows.trans (addLogicalToGroup_grows hgrows.ok (hgrows.tablesAt g tables hg) _
      ⟨ta, t, hgrows.tablesAt a ta ha, ht, ?_⟩)
    calc ta ++ t
      List.Perm _ (ta ++ (tb ++ tr)) := hsub.symm.append_left ta
      List.Perm _ (ta ++ tb ++ tr) := by rw [List.append_assoc]
      List.Perm _ (tl ++ tr) := hab.append_right tr
      List.Perm _ tables := hperm
  | .join _ _ _ .left, _ | .scan _ _, _ | .filter _ _, _ | .aggregate _ _ _, _ => .refl h

theorem pushDown_grows {predicate : Expr} :
    ∀ {op}, LogicalOk m.tablesAt l tables op → Grows ctx m (pushDown ctx g predicate m op)
  | .join left right on .inner, ⟨tl, tr, hl, hr, hperm⟩ => by
    simp only [pushDown]
    split
    · exact .refl h
    · obtain ⟨hleft, hl'⟩ := pushInto_grows h hl ((splitConjuncts predicate).filter fun c =>
        conjunctSide ctx (m.group left).props (m.group right).props c = .left)
      obtain ⟨hright, hr'⟩ := pushInto_grows hleft.ok (hleft.tablesAt right tr hr)
        ((splitConjuncts predicate).filter fun c =>
          conjunctSide ctx (m.group left).props (m.group right).props c = .right)
      have hboth := hleft.trans hright
      exact hboth.trans (addLogicalToGroup_grows hboth.ok (hboth.tablesAt g tables hg) _
        ⟨tl, tr, hright.tablesAt _ tl hl', hr', hperm⟩)
  | .join _ _ _ .left, _ | .scan _ _, _ | .filter _ _, _ | .aggregate _ _ _, _ => .refl h

theorem transform_grows :
    ∀ {op}, LogicalOk m.tablesAt g tables op → Grows ctx m (transform ctx g m op)
  | .join left right on .inner, ⟨tl, tr, hl, hr, hperm⟩ => by
    have hcommute := addLogicalToGroup_grows h hg (.join right left (on.map flipJoinOn) .inner)
      ⟨tr, tl, hr, hl, List.perm_append_comm.trans hperm⟩
    refine hcommute.trans (foldl_ops hcommute.ok (hcommute.tablesAt left tl hl) fun m' hm' op hop => ?_)
    have hgrows := hcommute.trans hm'
    exact associate_grows hm'.ok (hgrows.tablesAt g tables hg) (hgrows.tablesAt right tr hr) hperm hop
  | .filter input predicate, ⟨_, hinput⟩ =>
    foldl_ops h hinput fun m' hm' op hop => pushDown_grows hm'.ok (hm'.tablesAt g tables hg) hop
  | .join _ _ _ .left, _ | .scan _ _, _ | .aggregate _ _ _, _ => .refl h

theorem applyTransformationRules_grows {depth : Nat} :
    Grows ctx m (m.applyTransformationRules ctx g depth) := by
  rw [applyTransformationRules]
  split
  · exact .refl h
  · exact foldl_ops h hg fun m' hm' op hop => transform_grows hm'.ok (hm'.tablesAt g tables hg) hop

theorem implementFilter_grows {predicate : Expr} :
    ∀ {op}, LogicalOk m.tablesAt l tables op → Grows ctx m (implementFilter ctx g predicate m op)
  | .scan i _, heq => by
    obtain rfl : tables = [i] := heq
    rw [implementFilter]
    split
    · next tm htm =>
      have hi := (List.getElem?_eq_some_iff.mp htm).1
      have hindex := addIndexScan_grows h hg hi tm predicate
      exact hindex.trans (addScans_grows hindex.ok (hindex.tablesAt g [i] hg) hi tm (some predicate))
    · exact .refl h
  | .join _ _ _ _, _ | .filter _ _, _ | .aggregate _ _ _, _ => .refl h

theorem implementJoin_grows (hsplits : Splits m.tablesAt tables l r) (on : Option Expr) (kind : JoinKind) :
    Grows ctx m (m.implementJoin ctx g l r on kind) := by
  have hadd : ∀ {m'}, Grows ctx m m' → ∀ keys build cost,
      Grows ctx m (m'.addPhysicalToGroup ctx g (.hashJoin l r keys kind build) cost) :=
    fun hm' keys build cost => hm'.trans (addPhysicalToGroup_grows hm'.ok (hm'.tablesAt g tables hg)
      (.hashJoin l r keys kind build) (hsplits.mono hm'.tablesAt) cost)
  have hhash : ∀ {pair}, Grows ctx m (m.addHashJoins ctx g l r kind pair) := by
    intro pair
    cases pair with
    | none => exact .refl h
    | some keys =>
      simp only [addHashJoins]
      split
      · exact hadd (hadd (.refl h) _ _ _) _ _ _
      · exact hadd (.refl h) _ _ _
  exact hhash.trans (addPhysicalToGroup_grows hhash.ok (hhash.tablesAt g tables hg)
    (.nestedLoopJoin l r on kind) (hsplits.mono hhash.tablesAt) _)

theorem implement_grows :
    ∀ {op}, LogicalOk m.tablesAt g tables op → Grows ctx m (implement ctx g m op)
  | .scan i _, heq => by
    obtain rfl : tables = [i] := heq
    rw [implement]
    split
    · next tm htm => exact addScans_grows h hg (List.getElem?_eq_some_iff.mp htm).1 tm none
    · exact .refl h
  | .filter input predicate, ⟨_, hinput⟩ =>
    foldl_ops h hinput fun m' hm' op hop => implementFilter_grows hm'.ok (hm'.tablesAt g tables hg) hop
  | .join left right on kind, hsplits => implementJoin_grows h hg hsplits on kind
  | .aggregate input groupBy aggs, hinput => by
    have hbatch := addPhysicalToGroup_grows h hg (.batchAggregate input groupBy aggs) hinput
    exact (hbatch _).trans (addPhysicalToGroup_grows (hbatch _).ok ((hbatch _).tablesAt g tables hg)
      (.scalarAggregate input groupBy aggs) ⟨hinput.1, (hbatch _).tablesAt input tables hinput.2⟩ _)

theorem applyImplementationRules_grows :
    Grows ctx m (m.applyImplementationRules ctx g) :=
  foldl_ops h hg fun _ hm' _ hop => implement_grows hm'.ok (hm'.tablesAt g tables hg) hop

end

theorem settle_grows (h : m.Ok ctx) (hgrp : m.groups[g]? = some grp) {i : Nat}
    (hi : i < grp.physicalExprs.length) (cost : Float) : Grows ctx m (m.settle g i cost) := by
  refine modify_grows h (fun grp' hgrp' => ?_) fun e he => .inl he
  cases hgrp.symm.trans hgrp'
  have hok := h.groups g _ hgrp
  have hlen : (grp.physicalExprs.modify i fun p => { p with totalCost := cost }).length =
      grp.physicalExprs.length := List.length_modify ..
  refine ⟨⟨rfl, List.Subset.refl _, hlen.ge⟩,
    { hok with physical := fun p hp => ?_, best := fun b hb => ?_ }⟩
  · obtain ⟨j, hj⟩ := List.getElem?_of_mem hp
    rw [List.getElem?_modify] at hj
    obtain ⟨q, hq, rfl⟩ := Option.map_eq_some_iff.mp hj
    have hop : (if i = j then { q with totalCost := cost } else q : PhysicalMember).op = q.op := by
      split
      · rfl
      · rfl
    rw [hop]
    exact hok.physical q (List.mem_of_getElem? hq)
  · rw [hlen]
    split at hb
    · cases hb
      exact hi
    · next cur hcur =>
      split at hb
      · cases hb
        exact hi
      · exact Option.some.inj hb ▸ hok.best cur hcur

/-- The inputs of an operator are groups. -/
theorem PhysicalOk.children : ∀ {op}, PhysicalOk ctx at_ g tables op → ∀ c ∈ op.children,
    ∃ t, at_ c = some t
  | .tableScan _, _, _, hc | .indexScan _ _, _, _, hc | .batchScan _ _, _, _, hc =>
    (List.not_mem_nil hc).elim
  | .hashJoin _ _ _ _ _, h, _, hc | .nestedLoopJoin _ _ _ _, h, _, hc => by
    obtain ⟨tl, tr, hl, hr, -⟩ := h
    rcases List.mem_pair.mp hc with rfl | rfl
    · exact ⟨tl, hl⟩
    · exact ⟨tr, hr⟩
  | .batchAggregate _ _ _, h, _, hc | .scalarAggregate _ _ _, h, _, hc => by
    cases List.mem_singleton.mp hc
    exact ⟨tables, h.2⟩

theorem optimizeGroup_grows : ∀ (depth : Nat) {g : GroupId} (limit : Float) {m : Memo}, m.Ok ctx →
    (∃ tables, m.tablesAt g = some tables) → Grows ctx m (optimizeGroup ctx depth g limit m)
  | 0, _, _, _, h, _ => .refl h
  | depth + 1, g, limit, m, h, ⟨tables, hg⟩ => by
    simp only [optimizeGroup]
    generalize hexplored : (if (m.group g).explored = true then m else _ : Memo) = m₁
    have h₁ : Grows ctx m m₁ := by
      subst hexplored
      split
      · exact .refl h
      · have hmark : Grows ctx m (m.modify g fun grp => { grp with explored := true }) :=
          modify_grows h (fun grp hgrp => ⟨⟨rfl, List.Subset.refl _, le_rfl⟩,
            { h.groups g grp hgrp with }⟩) fun e he => .inl he
        exact hmark.trans (applyTransformationRules_grows hmark.ok (hmark.tablesAt g tables hg))
    have h₂ := h₁.trans (applyImplementationRules_grows h₁.ok (h₁.tablesAt g tables hg))
    refine h₂.trans (foldl_grows (v := id) h₂.ok fun m' (hm' : Grows ctx _ m') i _ => ?_)
    obtain ⟨grp, hgrp, rfl⟩ := tablesAt_eq_some.mp ((h₂.trans hm').tablesAt g tables hg)
    simp only [id, group_eq hgrp]
    split
    · exact .refl hm'.ok
    · next p hp =>
      have hchildren := PhysicalOk.children
        ((hm'.ok.groups g grp hgrp).physical p (List.mem_of_getElem? hp))
      generalize hvisit : p.op.children.foldl _ (some p.selfCost, m') = acc
      have hacc : Grows ctx m' acc.2 := by
        subst hvisit
        refine foldl_grows (v := Prod.snd) (s := (some p.selfCost, m')) hm'.ok fun s hs c hc => ?_
        split
        · exact .refl hs.ok
        · split
          · exact .refl hs.ok
          · obtain ⟨t, ht⟩ := hchildren c hc
            exact optimizeGroup_grows depth _ hs.ok ⟨t, hs.tablesAt c t ht⟩
      split
      · exact hacc
      · obtain ⟨grp', hgrp', hle⟩ := hacc.le g grp hgrp
        exact hacc.trans (settle_grows hacc.ok hgrp'
          ((List.getElem?_eq_some_iff.mp hp).1.trans_le hle.physical) _)

/-! ## The optimizer builds a well formed memo -/

theorem insertScan_grows (h : m.Ok ctx) (i : Nat) : Grows ctx m (m.insertScan ctx i).2 ∧
    (m.insertScan ctx i).2.tablesAt (m.insertScan ctx i).1 = some [i] := by
  obtain ⟨hgrows, tables, htables, rfl⟩ := insertLogical_grows h (.scan i _) trivial
  exact ⟨hgrows, htables⟩

/-- The joins bring in the tables one by one. -/
theorem insertJoins_ok : ∀ (joins : List JoinClause) {i : Nat} {acc : GroupId × Memo}
    {tables : List Nat}, acc.2.Ok ctx → acc.2.tablesAt acc.1 = some tables → tables.Perm (List.range i) →
    (insertJoins ctx joins i acc).2.Ok ctx ∧ ∃ t, t.Perm (List.range (i + joins.length)) ∧
      (insertJoins ctx joins i acc).2.tablesAt (insertJoins ctx joins i acc).1 = some t
  | [], _, _, tables, h, hg, hperm => ⟨h, tables, hperm, hg⟩
  | j :: joins, i, (curr, m), tables, h, hg, hperm => by
    obtain ⟨hscan, hr⟩ := insertScan_grows h i
    have hcurr := hscan.tablesAt curr tables hg
    obtain ⟨hjoin, t, ht, tl, tr, hl, hr', hsplit⟩ := insertLogical_grows hscan.ok
      (.join curr (m.insertScan ctx i).1 (some j.on) j.kind) ⟨tables, [i], hcurr, hr, by
        rw [List.disjoint_singleton, hperm.mem_iff, List.mem_range]
        exact lt_irrefl i⟩
    cases (hjoin.tablesAt _ _ hcurr).symm.trans hl
    cases (hjoin.tablesAt _ _ hr).symm.trans hr'
    have hrange : t.Perm (List.range (i + 1)) := by
      rw [List.range_succ]
      exact hsplit.symm.trans (hperm.append_right [i])
    rw [List.length_cons, Nat.add_comm joins.length, ← Nat.add_assoc]
    exact insertJoins_ok joins hjoin.ok ht hrange

/-- An operator over one group has its tables. -/
theorem insertOver_ok (h : m.Ok ctx) (hg : m.tablesAt g = some tables) (op : LogicalOp)
    (hinsert : m.Insertable op) (hop : ∀ {at_ g' t}, LogicalOk at_ g' t op → at_ g = some t) :
    (m.insertLogical ctx op).2.Ok ctx ∧
      (m.insertLogical ctx op).2.tablesAt (m.insertLogical ctx op).1 = some tables := by
  obtain ⟨hgrows, t, ht, hlogical⟩ := insertLogical_grows h op hinsert
  cases (hgrows.tablesAt g tables hg).symm.trans (hop hlogical)
  exact ⟨hgrows.ok, ht⟩

theorem insertSelect_ok (ctx : Context) (select : SelectStmt) : (insertSelect ctx select).2.Ok ctx ∧
    ∃ t, t.Perm (List.range (1 + select.joins.length)) ∧
      (insertSelect ctx select).2.tablesAt (insertSelect ctx select).1 = some t := by
  have hempty : (⟨[], []⟩ : Memo).Ok ctx :=
    ⟨fun g grp hg => by simp at hg, fun e he => (List.not_mem_nil he).elim⟩
  obtain ⟨hscan, hg⟩ := insertScan_grows hempty 0
  obtain ⟨hjoins, t, hperm, ht⟩ := insertJoins_ok select.joins hscan.ok hg
    (List.Perm.refl (List.range 1))
  have hfilter : ∀ {acc} selection, acc.2.Ok ctx → acc.2.tablesAt acc.1 = some t →
      (insertFilter ctx acc selection).2.Ok ctx ∧
        (insertFilter ctx acc selection).2.tablesAt (insertFilter ctx acc selection).1 = some t := by
    intro acc selection hok hat
    cases selection with
    | none => exact ⟨hok, hat⟩
    | some predicate =>
      exact insertOver_ok hok hat _ (Option.isSome_iff_exists.mpr ⟨t, hat⟩) fun hop => hop.2
  obtain ⟨hok, hat⟩ := hfilter select.selection hjoins ht
  simp only [insertSelect]
  split
  · obtain ⟨hok', hat'⟩ := insertOver_ok hok hat (.aggregate _ select.groupBy select.items)
      (Option.isSome_iff_exists.mpr ⟨t, hat⟩) fun hop => hop.2
    exact ⟨hok', t, hperm, hat'⟩
  · exact ⟨hok, t, hperm, hat⟩

theorem pass_grows (h : m.Ok ctx) {rule : Memo → GroupId → Memo}
    (hrule : ∀ m g tables, m.Ok ctx → m.tablesAt g = some tables → Grows ctx m (rule m g)) :
    Grows ctx m (m.pass rule) :=
  foldl_grows (v := id) h fun m' hm' g hg =>
    hrule m' g _ hm'.ok (hm'.tablesAt g _ (by
      rw [id, Memo.tablesAt, List.getElem?_eq_getElem (List.mem_range.mp hg)]
      rfl))

theorem search_ok (ctx : Context) (select : SelectStmt) : (search ctx select).2.Ok ctx ∧
    ∃ t, t.Perm (List.range (1 + select.joins.length)) ∧
      (search ctx select).2.tablesAt (search ctx select).1 = some t := by
  obtain ⟨hok, t, hperm, ht⟩ := insertSelect_ok ctx select
  have hexplore : ∀ m g tables, m.Ok ctx → m.tablesAt g = some tables →
      Grows ctx m (m.applyTransformationRules ctx g 2) :=
    fun _ _ _ h hg => applyTransformationRules_grows h hg
  simp only [search]
  generalize insertSelect ctx select = acc at hok ht
  have hfirst := pass_grows hok hexplore
  have hsecond := hfirst.trans (pass_grows hfirst.ok hexplore)
  have himplement := hsecond.trans (pass_grows hsecond.ok fun _ _ _ h hg =>
    applyImplementationRules_grows h hg)
  have hall := himplement.trans (optimizeGroup_grows 5 (1.0 / 0.0) himplement.ok
    ⟨t, himplement.tablesAt _ t ht⟩)
  exact ⟨hall.ok, t, hperm, hall.tablesAt _ t ht⟩

/-! ## Groups are above their inputs -/

/-- An operator of the group has the input. -/
def Child (m : Memo) (g c : GroupId) : Prop :=
  ∃ grp, m.groups[g]? = some grp ∧
    ((∃ op ∈ grp.logicalExprs, c ∈ op.children) ∨ ∃ p ∈ grp.physicalExprs, c ∈ p.op.children)

/-- The number of tables first, then the age. -/
def rank (m : Memo) (g : GroupId) : Nat := ((m.tablesAt g).getD []).length * m.groups.length + g

theorem rank_splits (h : m.Ok ctx) (hg : m.tablesAt g = some tables)
    (hsplits : Splits m.tablesAt tables l r) : m.rank l < m.rank g ∧ m.rank r < m.rank g := by
  obtain ⟨tl, tr, hl, hr, hperm⟩ := hsplits
  have hpos : ∀ {j t}, m.tablesAt j = some t → 0 < t.length ∧ j < m.groups.length := by
    intro j t hj
    obtain ⟨grp, hgrp, rfl⟩ := tablesAt_eq_some.mp hj
    exact ⟨List.length_pos_iff.mpr (h.groups j grp hgrp).nonempty, (List.getElem?_eq_some_iff.mp hgrp).1⟩
  have hlen := hperm.length_eq
  rw [List.length_append] at hlen
  have hless : ∀ {j t}, m.tablesAt j = some t → t.length + 1 ≤ tables.length → m.rank j < m.rank g := by
    intro j t hj hle
    rw [rank, rank, hj, hg, Option.getD_some, Option.getD_some]
    calc t.length * m.groups.length + j
        < t.length * m.groups.length + m.groups.length := Nat.add_lt_add_left (hpos hj).2 _
      _ = (t.length + 1) * m.groups.length := (Nat.succ_mul ..).symm
      _ ≤ tables.length * m.groups.length := Nat.mul_le_mul_right _ hle
      _ ≤ tables.length * m.groups.length + g := Nat.le_add_right ..
  have hposl := (hpos hl).1
  have hposr := (hpos hr).1
  exact ⟨hless hl (by omega), hless hr (by omega)⟩

theorem rank_older (hg : m.tablesAt g = some tables) {input : GroupId}
    (hinput : input < g ∧ m.tablesAt input = some tables) : m.rank input < m.rank g := by
  rw [rank, rank, hg, hinput.2]
  exact Nat.add_lt_add_left hinput.1 _

theorem Child.rank_lt (h : m.Ok ctx) {c : GroupId} : m.Child g c → m.rank c < m.rank g := by
  rintro ⟨grp, hgrp, hchild⟩
  have hg : m.tablesAt g = some grp.props.tables := tablesAt_eq_some.mpr ⟨grp, hgrp, rfl⟩
  have hpair : ∀ {l r}, Splits m.tablesAt grp.props.tables l r → c ∈ [l, r] → m.rank c < m.rank g := by
    intro l r hsplits hc
    rcases List.mem_pair.mp hc with rfl | rfl
    · exact (rank_splits h hg hsplits).1
    · exact (rank_splits h hg hsplits).2
  have hsingle : ∀ {input}, (input < g ∧ m.tablesAt input = some grp.props.tables) → c ∈ [input] →
      m.rank c < m.rank g := by
    intro input hinput hc
    cases List.mem_singleton.mp hc
    exact rank_older hg hinput
  rcases hchild with ⟨op, hop, hc⟩ | ⟨⟨op, _, _⟩, hp, hc⟩
  · have hok := (h.groups g grp hgrp).logical op hop
    cases op with
    | scan i n => exact (List.not_mem_nil hc).elim
    | filter input p => exact hsingle hok hc
    | aggregate input gs as => exact hsingle hok hc
    | join l r on kind => exact hpair hok hc
  · have hok := (h.groups g grp hgrp).physical _ hp
    cases op with
    | tableScan i => exact (List.not_mem_nil hc).elim
    | indexScan i path => exact (List.not_mem_nil hc).elim
    | batchScan i f => exact (List.not_mem_nil hc).elim
    | hashJoin l r keys kind build => exact hpair hok hc
    | nestedLoopJoin l r on kind => exact hpair hok hc
    | batchAggregate input gs as => exact hsingle hok hc
    | scalarAggregate input gs as => exact hsingle hok hc

/-- No group is below itself. -/
theorem acyclic (h : m.Ok ctx) (g : GroupId) : ¬ Relation.TransGen m.Child g g := by
  have hlt : ∀ {c}, Relation.TransGen m.Child g c → m.rank c < m.rank g := by
    intro c hc
    induction hc with
    | single hchild => exact Child.rank_lt h hchild
    | tail _ hchild ih => exact (Child.rank_lt h hchild).trans ih
  exact fun hloop => lt_irrefl _ (hlt hloop)

/-- A plan over plans of the inputs scans what they scan. -/
theorem plan_scans (cost estRows : Float) : ∀ {op : PhysicalOp} {plans : List PhysicalPlan},
    PhysicalOk ctx m.tablesAt g tables op →
    List.Forall₂ (fun c p => ∀ t, m.tablesAt c = some t → p.scans.Perm t) op.children plans →
    ∃ plan, op.plan ctx cost estRows plans = some plan ∧ plan.scans.Perm tables
  | .tableScan i, _, h, .nil | .indexScan i _, _, h, .nil | .batchScan i _, _, h, .nil => by
    rw [PhysicalOp.plan, List.getElem?_eq_getElem h.2]
    exact ⟨_, rfl, .of_eq h.1.symm⟩
  | .hashJoin _ _ _ _ _, _, ⟨tl, tr, hl, hr, hperm⟩, .cons hpl (.cons hpr .nil)
  | .nestedLoopJoin _ _ _ _, _, ⟨tl, tr, hl, hr, hperm⟩, .cons hpl (.cons hpr .nil) =>
    ⟨_, rfl, ((hpl tl hl).append (hpr tr hr)).trans hperm⟩
  | .batchAggregate _ _ _, _, h, .cons hp .nil | .scalarAggregate _ _ _, _, h, .cons hp .nil =>
    ⟨_, rfl, hp tables h.2⟩

/-- The answer of the extraction once its calls may be deep enough. -/
def Extracts (ctx : Context) (m : Memo) (g : GroupId) (best : Option PhysicalPlan) : Prop :=
  (∀ depth, m.rank g < depth → (m.extractBestPlan ctx depth g).run = some best) ∧
    ∀ plan tables, best = some plan → m.tablesAt g = some tables → plan.scans.Perm tables

/-- The plans of the inputs of an operator. -/
theorem mapM_extracts : ∀ {l : List GroupId}, (∀ c ∈ l, ∃ best, Extracts ctx m c best) →
    ∃ bests, (∀ depth, (∀ c ∈ l, m.rank c < depth) →
      (l.mapM (m.extractBestPlan ctx depth)).run = some bests) ∧ ∀ plans, bests = some plans →
        List.Forall₂ (fun c p => ∀ t, m.tablesAt c = some t → p.scans.Perm t) l plans
  | [], _ => ⟨some [], fun _ _ => rfl, fun plans h => Option.some.inj h ▸ .nil⟩
  | c :: l, h => by
    obtain ⟨best, hbest, hscans⟩ := h c List.mem_cons_self
    obtain ⟨bests, hbests, hall⟩ := mapM_extracts fun c' hc' => h c' (List.mem_cons_of_mem c hc')
    refine ⟨best.bind fun p => bests.map (p :: ·), fun depth hd => ?_, fun plans hplans => ?_⟩
    · have hhead := hbest depth (hd c List.mem_cons_self)
      have htail := hbests depth fun c' hc' => hd c' (List.mem_cons_of_mem c hc')
      rw [List.mapM_cons, OptionT.run_bind, hhead]
      cases best with
      | none => rfl
      | some p =>
        show (l.mapM _ >>= fun ps => pure (p :: ps) : OptionT Option _).run = _
        rw [OptionT.run_bind, htail]
        cases bests <;> rfl
    · obtain ⟨p, rfl, hplans⟩ := Option.bind_eq_some_iff.mp hplans
      obtain ⟨ps, rfl, rfl⟩ := Option.map_eq_some_iff.mp hplans
      exact .cons (fun t => hscans p t rfl) (hall ps rfl)

/-- The extraction returns, and its plan scans the tables of the group. -/
theorem exists_extracts (h : m.Ok ctx) {g : GroupId} (hlt : g < m.groups.length) :
    ∃ best, Extracts ctx m g best := by
  have hgrp := List.getElem?_eq_getElem hlt
  generalize m.groups[g] = grp at hgrp
  have hg : m.tablesAt g = some grp.props.tables := tablesAt_eq_some.mpr ⟨grp, hgrp, rfl⟩
  have hok := h.groups g grp hgrp
  cases hb : grp.bestPlan with
  | none =>
    refine ⟨none, fun depth hd => ?_, fun plan _ hp => by cases hp⟩
    obtain ⟨d, rfl⟩ := Nat.exists_eq_succ_of_ne_zero (Nat.ne_zero_of_lt hd)
    simp [extractBestPlan, hgrp, hb, Option.elimM]
  | some b =>
    obtain ⟨member, hmember⟩ : ∃ member, grp.physicalExprs[b.physicalIdx]? = some member :=
      ⟨_, List.getElem?_eq_getElem (hok.best b hb)⟩
    have hp := List.mem_of_getElem? hmember
    have hrank : ∀ c ∈ member.op.children, m.rank c < m.rank g := fun c hc =>
      Child.rank_lt h ⟨grp, hgrp, .inr ⟨member, hp, hc⟩⟩
    obtain ⟨bests, hbests, hall⟩ := mapM_extracts fun c hc => by
      have := hrank c hc
      obtain ⟨t, ht⟩ := PhysicalOk.children (hok.physical member hp) c hc
      obtain ⟨_, hgrp', -⟩ := tablesAt_eq_some.mp ht
      exact exists_extracts h (List.getElem?_eq_some_iff.mp hgrp').1
    have hrun : ∀ depth, m.rank g < depth → ∃ d, depth = d + 1 ∧
        (member.op.children.mapM (m.extractBestPlan ctx d)).run = some bests := fun depth hd => by
      obtain ⟨d, rfl⟩ := Nat.exists_eq_succ_of_ne_zero (Nat.ne_zero_of_lt hd)
      exact ⟨d, rfl, hbests d fun c hc => (hrank c hc).trans_le (Nat.lt_succ_iff.mp hd)⟩
    cases bests with
    | none =>
      refine ⟨none, fun depth hd => ?_, fun plan _ hplan => by cases hplan⟩
      obtain ⟨d, rfl, hplans⟩ := hrun depth hd
      simp [extractBestPlan, hgrp, hb, hmember, hplans, Option.elimM]
    | some plans =>
      obtain ⟨plan, hplan, hscans⟩ := plan_scans member.totalCost grp.props.estRows
        (hok.physical member hp) (hall plans rfl)
      refine ⟨some plan, fun depth hd => ?_, fun plan' tables hplan' ht => ?_⟩
      · obtain ⟨d, rfl, hplans⟩ := hrun depth hd
        simp [extractBestPlan, hgrp, hb, hmember, hplans, hplan, Option.elimM]
      · cases hplan'
        cases hg.symm.trans ht
        exact hscans
termination_by m.rank g

end Memo

/-- In every memo the optimizer builds no group is below itself, the extraction returns for
every group, and a plan of the root scans every table of the statement once. -/
theorem memo_plans {same : Equality} {selectivity : TableMeta → Expr → Float}
    {resolve : TableRef → Except Error TableMeta} {select : SelectStmt} {root : GroupId}
    (h : optimizeSelectMemo same selectivity resolve select = .ok (ctx, root, m)) :
    (∀ g, ¬ Relation.TransGen m.Child g g) ∧
      (∀ g < m.groups.length, ∃ best, ∀ depth, m.rank g < depth →
        (m.extractBestPlan ctx depth g).run = some best) ∧
      ∃ best, (∀ depth, m.rank root < depth → (m.extractBestPlan ctx depth root).run = some best) ∧
        ∀ plan, best = some plan → plan.scans.Perm (List.range (1 + select.joins.length)) := by
  obtain ⟨source, -, h⟩ := Outcome.bind_ok h
  obtain ⟨joined, -, h⟩ := Outcome.bind_ok h
  obtain ⟨rfl, hsearch⟩ := Prod.mk.inj (Except.ok.inj h)
  obtain ⟨hok, tables, hperm, hroot⟩ := Memo.search_ok ⟨source :: joined, same, selectivity⟩ select
  rw [hsearch] at hok hroot
  obtain ⟨grp, hgrp, -⟩ := Memo.tablesAt_eq_some.mp hroot
  obtain ⟨best, hbest, hscans⟩ := Memo.exists_extracts hok (List.getElem?_eq_some_iff.mp hgrp).1
  refine ⟨Memo.acyclic hok, fun g hg => ?_, best, hbest, fun plan hplan => ?_⟩
  · obtain ⟨best, hbest, -⟩ := Memo.exists_extracts hok hg
    exact ⟨best, hbest⟩
  · exact (hscans plan tables hplan hroot).trans hperm

/-- A table of a thousand rows with the columns `id` and `up`. -/
def linkedTable (name : String) : TableMeta where
  table := .new
    { name
      schema :=
        { columns :=
            [{ name := "id", ctype := .int, nullable := false, autoIncrement := false,
               defaultValue := none },
             { name := "up", ctype := .int, nullable := true, autoIncrement := false,
               defaultValue := none }]
          pkIdx := 0 }
      indexes := []
      foreignKeys := []
      stats := none }
  name
  totalRows := 1000
  ephemeral := false

def resolveLinked : TableRef → Except Error TableMeta
  | .table name => .ok (linkedTable name)
  | _ => .error (.parseError "unsupported")

/-- `SELECT * FROM a JOIN b ON a.id = b.up JOIN c ON b.id = c.up WHERE a.up = 5`. -/
def linkedSelect : SelectStmt where
  items := [.star]
  source := .table "a"
  joins :=
    [⟨.inner, .table "b", .cmp (.column "a.id") .eq (.column "b.up")⟩,
     ⟨.inner, .table "c", .cmp (.column "b.id") .eq (.column "c.up")⟩]
  selection := some (.cmp (.column "a.up") .eq (.literal (.int 5)))
  orderBy := []
  limit := none
  groupBy := []

/-- Three joined tables with a condition. -/
theorem memo_plans_linked :
    ∃ ctx root m, optimizeSelectMemo ⟨fun _ _ => false, fun _ _ => false, fun _ _ => false⟩
        (fun _ _ => 0.1) resolveLinked linkedSelect = .ok (ctx, root, m) ∧
      (∀ g, ¬ Relation.TransGen m.Child g g) ∧
      ∃ best, (∀ depth, m.rank root < depth → (m.extractBestPlan ctx depth root).run = some best) ∧
        ∀ plan, best = some plan → plan.scans.Perm [0, 1, 2] := by
  have hrun := @rfl _ (optimizeSelectMemo ⟨fun _ _ => false, fun _ _ => false, fun _ _ => false⟩
    (fun _ _ => 0.1) resolveLinked linkedSelect)
  obtain ⟨hacyclic, -, hbest⟩ := memo_plans hrun
  exact ⟨_, _, _, hrun, hacyclic, hbest⟩

end HenchDB.Optimizer
