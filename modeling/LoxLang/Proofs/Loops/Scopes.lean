import Mathlib
import LoxLang.Proofs.Alike.Machine
import LoxLang.Proofs.Loops.Tree
import LoxLang.Proofs.Scope.Rules

/-!
# Proofs/Loops/Scopes — resolving programs with `while` in place of `for`

An idle scope declares nothing, so what a place sees is the same in both programs, further out
(`Matching`). It follows that resolving reports the same faults in both, up to their order
(`resolve_faults_perm`): the increment of a `for` is visited before its body, and that of a
`while` behind it. And where the distances of both are noted, those of the second program are those
of the first with the idle scopes counted in (`Stmt.AllUnrolls.shifted`).
-/

namespace LoxLang

/-! ## Names around a place -/

namespace Scopes

/-- The scopes with the idle ones among them. -/
def padded : Scopes → Mask → Scopes
  | Γ, [] => Γ
  | Γ, false :: mask => [] :: padded Γ mask
  | [], true :: _ => []
  | scope :: Γ, true :: mask => scope :: padded Γ mask

@[simp] theorem padded_false (Γ : Scopes) (mask : Mask) :
    Γ.padded (false :: mask) = [] :: Γ.padded mask := by
  cases Γ <;> rfl

/-- A name is found behind the idle scopes, at the distance that they add up to. -/
theorem distance?_padded (x : String) : ∀ (mask : Mask) (Γ : Scopes),
    (Γ.padded mask).distance? x = (Γ.distance? x).map mask.shift
  | [], Γ => by cases Γ <;> simp [padded, Mask.shift]
  | false :: mask, Γ => by
    rw [padded_false, distance?_cons_of_not_mem List.not_mem_nil, distance?_padded x mask Γ,
      Option.map_map]
    exact congrArg (Option.map · _) (funext fun d => (Mask.shift_false mask d).symm)
  | true :: mask, [] => rfl
  | true :: mask, scope :: Γ => by
    by_cases hx : x ∈ scope
    · rw [padded, distance?_cons_of_mem hx, distance?_cons_of_mem hx]
      rfl
    · rw [padded, distance?_cons_of_not_mem hx, distance?_cons_of_not_mem hx,
        distance?_padded x mask Γ, Option.map_map, Option.map_map]
      rfl

/-- A name is declared in a scope that both programs have. -/
theorem declare_padded {mask : Mask} (hmask : mask.shift 0 = 0) (Γ : Scopes) (x : String) :
    (Γ.padded mask).declare x = (Γ.declare x).padded mask := by
  rcases mask with _ | ⟨_ | _, mask⟩
  · cases Γ <;> rfl
  · simp at hmask
  · cases Γ <;> rfl

/-- If the innermost scope is not idle it declares the same in both programs. -/
theorem headD_padded {mask : Mask} (hmask : mask.shift 0 = 0) (Γ : Scopes) :
    (Γ.padded mask).headD [] = Γ.headD [] := by
  rcases mask with _ | ⟨_ | _, mask⟩
  · cases Γ <;> rfl
  · simp at hmask
  · cases Γ <;> rfl

end Scopes

/-- What a statement declares is declared in the same scope of both programs. -/
theorem Stmt.after_padded {mask : Mask} (hmask : mask.shift 0 = 0) (Γ : Scopes) (s : Stmt) :
    s.after (Γ.padded mask) = (s.after Γ).padded mask := by
  cases s with
  | varDecl | funDecl | classDecl => exact Scopes.declare_padded hmask Γ _
  | _ => rfl

open Scope

/-- **Places that see the same**, but for idle scopes around the second. -/
structure Matching (mask : Mask) (scopes scopes' : List Enclosing) : Prop where
  visible : visible scopes' = (visible scopes).padded mask
  opened : mask.shift 0 = 0 → opened scopes' = (opened scopes).padded mask
  context : contextOf scopes' = contextOf scopes
  isEmpty : scopes'.isEmpty = scopes.isEmpty

theorem visible_behind (s : Stmt) (scopes : List Enclosing) :
    visible (behind s scopes) = opened (behind s scopes) := by
  cases scopes <;> rfl

/-- Some scope is open at a statement just if one is open around it. -/
theorem isEmpty_holding (s : Stmt) (scopes : List Enclosing) :
    (holding s scopes).isEmpty = scopes.isEmpty := by
  cases scopes <;> rfl

theorem isEmpty_behind (s : Stmt) (scopes : List Enclosing) :
    (behind s scopes).isEmpty = scopes.isEmpty := by
  cases scopes <;> rfl

/-- What the scopes say of `return` and `this`: the innermost that has something to say counts. -/
theorem contextOf_cons (c : Enclosing) (scopes : List Enclosing) :
    contextOf (c :: scopes) = ⟨(contextOf [c]).routine.or (contextOf scopes).routine,
      (contextOf [c]).inClass || (contextOf scopes).inClass⟩ := by
  simp only [contextOf, List.findSome?_cons, List.any_cons, List.any_nil, Bool.or_false]
  cases kindOf? c.construct <;> rfl

namespace Matching

variable {loops : Prop} {uses : Mask → Ids} {mask : Mask} {scopes scopes' : List Enclosing}

theorem nil : Matching [] [] [] := ⟨rfl, fun _ => rfl, rfl, rfl⟩

/-- Inside of related statements. -/
theorem holding {s s' : Stmt} (h : Matching mask scopes scopes') (hmask : mask.shift 0 = 0)
    (hs : s.Unrolls loops uses mask s') :
    Matching mask (LoxLang.holding s scopes) (LoxLang.holding s' scopes') where
  visible := by
    rw [visible_holding, visible_holding, h.opened hmask, Stmt.after_padded hmask, hs.after_eq]
  opened _ := by rw [opened_holding, opened_holding, h.opened hmask]
  context := by rw [contextOf_holding, contextOf_holding, h.context]
  isEmpty := by rw [isEmpty_holding, isEmpty_holding, h.isEmpty]

/-- Behind related statements. -/
theorem behind {s s' : Stmt} (h : Matching mask scopes scopes') (hmask : mask.shift 0 = 0)
    (hs : s.Unrolls loops uses mask s') :
    Matching mask (LoxLang.behind s scopes) (LoxLang.behind s' scopes') := by
  have hopened : LoxLang.opened (LoxLang.behind s' scopes') =
      (LoxLang.opened (LoxLang.behind s scopes)).padded mask := by
    rw [opened_behind, opened_behind, h.opened hmask, Stmt.after_padded hmask, hs.after_eq]
  refine ⟨?_, fun _ => hopened, ?_, ?_⟩
  · rw [visible_behind, visible_behind, hopened]
  · rw [contextOf_behind, contextOf_behind, h.context]
  · rw [isEmpty_behind, isEmpty_behind, h.isEmpty]

/-- Inside of one more scope that both programs have. A block may stand for a loop. -/
theorem cons {c c' : Enclosing} (h : Matching mask scopes scopes') (hnames : c'.names = c.names)
    (hearlier : c'.earlier = c.earlier) (hcontext : contextOf [c'] = contextOf [c]) :
    Matching (true :: mask) (c :: scopes) (c' :: scopes') where
  visible := congrArg₂ List.cons hnames h.visible
  opened _ := congrArg₂ List.cons hearlier h.visible
  context := by rw [contextOf_cons, contextOf_cons c, hcontext, h.context]
  isEmpty := rfl

theorem same (h : Matching mask scopes scopes') (c : Enclosing) :
    Matching (true :: mask) (c :: scopes) (c :: scopes') :=
  h.cons rfl rfl rfl

/-- Inside of an idle scope. -/
theorem idle {before : List Stmt} {here : Option Stmt} (h : Matching mask scopes scopes')
    (hne : scopes.isEmpty = false) (hnames : Enclosing.names ⟨.block, [], before, here⟩ = []) :
    Matching (false :: mask) scopes (⟨.block, [], before, here⟩ :: scopes') where
  visible := by
    rw [Scopes.padded_false, ← h.visible]
    exact congrArg (· :: _) hnames
  opened hmask := by simp at hmask
  context := by
    rw [← h.context]
    rfl
  isEmpty := hne.symm

end Matching

/-! ### Loops -/

/-- The first clause of a loop declares at most one name. -/
theorem Stmt.filterMap_declared?_toList (o : Option Stmt) :
    o.toList.filterMap Stmt.declared? = (o.bind Stmt.declared?).toList := by
  rcases o with _ | s
  · rfl
  · cases h : s.declared? <;> simp [h]

/-- A statement that is no declaration declares no name. -/
theorem Stmt.declared?_of_isDeclaration {s : Stmt} (h : s.isDeclaration = false) :
    s.declared? = none := by
  cases s with
  | varDecl | funDecl | classDecl => cases h
  | _ => rfl

/-- The scope of a block behind the first clause of a loop, at the loop itself. -/
def atLoop (o : Option Stmt) (c : Expr) (b : Option Expr) (s : Stmt) : Enclosing :=
  ⟨.block, [], o.toList, some (.whileStmt c (.block (s :: (b.map Stmt.exprStmt).toList)))⟩

/-- The sites of a `while` loop with the clauses of a `for`. -/
theorem Stmt.sites_whileBlock (o : Option Stmt) (c : Expr) (b : Option Expr) (s : Stmt)
    (scopes : List Enclosing) : (Stmt.whileBlock o c b s).sites scopes =
      Stmt.sitesOption (⟨.block, [], [], o⟩ :: scopes) o ++
        (Position.sites ⟨atLoop o c b s :: scopes, none⟩ c.items ++
          (s.sites (⟨.block, [], [], some s⟩ :: atLoop o c b s :: scopes) ++
            Position.sites
              ⟨⟨.block, [], [s], b.map Stmt.exprStmt⟩ :: atLoop o c b s :: scopes, none⟩
              (Expr.itemsOption b))) := by
  cases o <;> cases b <;>
    simp [Stmt.whileBlock, Stmt.sites, Stmt.sitesAll, Stmt.sitesOption, LoxLang.holding,
      LoxLang.behind, atLoop, Expr.itemsOption, Position.sites]

namespace Matching

variable {loops : Prop} {uses : Mask → Ids} {mask : Mask} {scopes scopes' : List Enclosing}
  {o o' : Option Stmt}

/-- In the first clause of a loop, in either form. -/
theorem clause (h : Matching mask scopes scopes')
    (ho : Stmt.OptionUnrolls loops uses (true :: mask) o o') {construct : Construct}
    (hconstruct : construct = .loop ∨ construct = .block) :
    Matching (true :: mask) (⟨.loop, [], [], o⟩ :: scopes)
      (⟨construct, [], [], o'⟩ :: scopes') := by
  rcases hconstruct with rfl | rfl <;>
    exact h.cons (by simp [Enclosing.names, Enclosing.earlier, Construct.given, ho.declared?_eq])
      rfl rfl

/-- Behind the first clause. -/
theorem loop (h : Matching mask scopes scopes')
    (ho : Stmt.OptionUnrolls loops uses (true :: mask) o o') :
    Matching (true :: mask) (⟨.loop, [], o.toList, none⟩ :: scopes)
      (⟨.loop, [], o'.toList, none⟩ :: scopes') := by
  have hearlier : Enclosing.earlier ⟨.loop, [], o'.toList, none⟩ =
      Enclosing.earlier ⟨.loop, [], o.toList, none⟩ := by
    simp only [Enclosing.earlier, Stmt.filterMap_declared?_toList, ho.declared?_eq]
  exact h.cons hearlier hearlier rfl

/-- Behind the first clause, where the loop is a `while`. -/
theorem unrolled (h : Matching mask scopes scopes')
    (ho : Stmt.OptionUnrolls loops uses (true :: mask) o o') (c : Expr) (b : Option Expr)
    (s : Stmt) : Matching (true :: mask) (⟨.loop, [], o.toList, none⟩ :: scopes)
      (atLoop o' c b s :: scopes') := by
  have hearlier : (atLoop o' c b s).earlier = Enclosing.earlier ⟨.loop, [], o.toList, none⟩ := by
    simp only [Enclosing.earlier, atLoop, Stmt.filterMap_declared?_toList, ho.declared?_eq]
    rfl
  exact h.cons hearlier hearlier rfl

/-- In the block around the body of a `while` loop. -/
theorem idle_of_isDeclaration (h : Matching mask scopes scopes') (hne : scopes.isEmpty = false)
    {s : Stmt} (hs : s.isDeclaration = false) (b : Option Expr) :
    Matching (false :: mask) scopes (⟨.block, [], [], some s⟩ :: scopes') ∧
      Matching (false :: mask) scopes (⟨.block, [], [s], b.map Stmt.exprStmt⟩ :: scopes') := by
  have hdeclared := Stmt.declared?_of_isDeclaration hs
  constructor
  · exact h.idle hne (by simp [Enclosing.names, Enclosing.earlier, Construct.given, hdeclared])
  · have hincrement : (b.map Stmt.exprStmt).bind Stmt.declared? = none := by cases b <;> rfl
    exact h.idle hne (by
      simp [Enclosing.names, Enclosing.earlier, Construct.given, hdeclared, hincrement])

end Matching

/-! ## Faults -/

theorem faultsAt_append (xs ys : List Site) : faultsAt (xs ++ ys) = faultsAt xs ++ faultsAt ys :=
  List.filterMap_append

/-- Uses of a name that differ at most in their ids. -/
inductive Item.Alike : Item → Item → Prop
  | read (i j : NodeId) (t : Token) : Alike (.read i t) (.read j t)
  | write (i j : NodeId) (t : Token) : Alike (.write i t) (.write j t)
  | this (i j : NodeId) (t : Token) : Alike (.this i t) (.this j t)

section

variable {uses : Ids}

mutual

/-- The uses of names in expressions that are alike, one by one. -/
theorem Expr.Alike.items : ∀ {e e' : Expr}, e.Alike Eq uses e' →
    List.Forall₂ Item.Alike e.items e'.items
  | _, _, .constant _ => .nil
  | _, _, .grouping h | _, _, .unary _ h | _, _, .get h _ => h.items
  | _, _, .binary ha _ hb | _, _, .logical ha _ hb | _, _, .set ha _ hb =>
    List.rel_append ha.items hb.items
  | _, _, .conditional ha hb hc => List.rel_append ha.items (List.rel_append hb.items hc.items)
  | _, _, .var _ ht => ht.eq ▸ .cons (.read _ _ _) .nil
  | _, _, .this _ ht => ht.eq ▸ .cons (.this _ _ _) .nil
  | _, _, .assign _ ht h => ht.eq ▸ List.rel_append h.items (.cons (.write _ _ _) .nil)
  | _, _, .call hf _ hes => List.rel_append hf.items hes.items

theorem Expr.AllAlike.items : ∀ {es es' : List Expr}, Expr.AllAlike Eq uses es es' →
    List.Forall₂ Item.Alike (Expr.itemsAll es) (Expr.itemsAll es')
  | _, _, .nil => .nil
  | _, _, .cons h hes => List.rel_append h.items hes.items

end

theorem Expr.OptionAlike.items {o o' : Option Expr} (h : Expr.OptionAlike Eq uses o o') :
    List.Forall₂ Item.Alike (Expr.itemsOption o) (Expr.itemsOption o') := by
  cases h with
  | none => exact .nil
  | some h => exact h.items

/-- A condition that is left out uses no name, and neither does `true`. -/
theorem Expr.ConditionAlike.items {o : Option Expr} {c : Expr} (h : Expr.ConditionAlike uses o c) :
    List.Forall₂ Item.Alike (Expr.itemsOption o) c.items := by
  cases h with
  | none => exact .nil
  | some h => exact h.items

end

namespace Matching

variable {mask : Mask} {scopes scopes' : List Enclosing}

/-- **A use of a name breaks the same rule at both places**, since an idle scope hides nothing. -/
theorem violation?_use (h : Matching mask scopes scopes') (own : Option Token) {item item' : Item}
    (hitem : item.Alike item') :
    Site.violation? ⟨⟨scopes, own⟩, item⟩ = Site.violation? ⟨⟨scopes', own⟩, item'⟩ := by
  cases hitem with
  | read i j t => simp only [Site.violation?, Position.pending?, h.isEmpty]
  | write i j t => rfl
  | this i j t => simp only [Site.violation?, h.context]

/-- Expressions are reported alike in places that see the same. -/
theorem faultsAt_items (h : Matching mask scopes scopes') (own : Option Token)
    {items items' : List Item} (hitems : List.Forall₂ Item.Alike items items') :
    faultsAt (Position.sites ⟨scopes, own⟩ items) =
      faultsAt (Position.sites ⟨scopes', own⟩ items') := by
  induction hitems with
  | nil => rfl
  | cons hitem _ ih =>
    simp only [Position.sites, faultsAt, List.map_cons, List.filterMap_cons] at ih ⊢
    rw [h.violation?_use own hitem, ih]

/-- A declaration is reported alike in a scope that both programs have. -/
theorem violation?_declaration (h : Matching mask scopes scopes') (hmask : mask.shift 0 = 0)
    (t : Token) : Site.violation? ⟨⟨scopes, none⟩, .declaration t⟩ =
      Site.violation? ⟨⟨scopes', none⟩, .declaration t⟩ := by
  simp only [Site.violation?, h.opened hmask, Scopes.headD_padded hmask]

/-- A `return` breaks the same rule at both places. -/
theorem violation?_returning (h : Matching mask scopes scopes') (t : Token) {e e' : Option Expr}
    (hvalue : e.isSome = e'.isSome) : Site.violation? ⟨⟨scopes, none⟩, .returning t e⟩ =
      Site.violation? ⟨⟨scopes', none⟩, .returning t e'⟩ := by
  simp only [Site.violation?, h.context, hvalue]

/-- One more site that is reported alike. -/
theorem faultsAt_cons {site site' : Site} {sites sites' : List Site}
    (hsite : site.violation? = site'.violation?) (h : (faultsAt sites).Perm (faultsAt sites')) :
    (faultsAt (site :: sites)).Perm (faultsAt (site' :: sites')) := by
  simp only [faultsAt, List.filterMap_cons, hsite]
  cases site'.violation? with
  | none => exact h
  | some d => exact h.cons d

/-- Two parameters of one name are a fault at both places. -/
theorem faultsAt_parameters (h : Matching mask scopes scopes') (construct : Construct) :
    ∀ earlier ts, faultsAt (parameterSites construct scopes earlier ts) =
      faultsAt (parameterSites construct scopes' earlier ts)
  | _, [] => rfl
  | earlier, t :: ts => by
    have hsame := h.same ⟨construct, earlier, [], none⟩
    have hrest := h.faultsAt_parameters construct (t :: earlier) ts
    simp only [parameterSites, faultsAt, List.filterMap_cons] at hrest ⊢
    rw [hsame.violation?_declaration rfl, hrest]

end Matching

section

variable {loops : Prop} {uses : Mask → Ids}

mutual

/-- **Unrolling a loop changes the order of the faults at most**: the increment comes behind the
body. -/
theorem Stmt.Unrolls.faults_perm : ∀ {mask : Mask} {s s' : Stmt} {scopes scopes' : List Enclosing},
    s.Unrolls loops uses mask s' → s.Shaped → Matching mask scopes scopes' →
    (faultsAt (s.sites scopes)).Perm (faultsAt (s'.sites scopes'))
  | _, _, _, _, _, .exprStmt h, _, hm | _, _, _, _, _, .printStmt h, _, hm =>
    .of_eq (hm.faultsAt_items none h.items)
  | _, _, _, _, _, .varDecl (t := t) hmask h, _, hm =>
    Matching.faultsAt_cons (hm.violation?_declaration hmask _)
      (.of_eq (hm.faultsAt_items (some t) (Expr.OptionAlike.items h)))
  | _, _, _, _, _, .block h, hs, hm => h.faults_perm hs rfl (hm.same _)
  | _, _, _, _, _, .ifStmt h ht ho, hs, hm => by
    simp only [Stmt.sites, faultsAt_append]
    exact .append (.of_eq (hm.faultsAt_items none h.items))
      (.append (ht.faults_perm hs.1.2 hm) (ho.faults_perm hs.2.2 hm))
  | _, _, _, _, _, .whileStmt h hbody, hs, hm => by
    simp only [Stmt.sites, faultsAt_append]
    exact .append (.of_eq (hm.faultsAt_items none h.items)) (hbody.faults_perm hs.2 hm)
  | _, _, _, _, _, .forStmt ho ha hb hbody, hs, hm => by
    have hclause := hm.clause ho (.inl rfl)
    have hloop := hm.loop ho
    simp only [Stmt.sites, faultsAt_append]
    exact .append (ho.faults_perm hs.1.2 hclause)
      (.append (.of_eq (hloop.faultsAt_items none (Expr.OptionAlike.items ha)))
        (.append (.of_eq (hloop.faultsAt_items none (Expr.OptionAlike.items hb)))
          (hbody.faults_perm hs.2.2 hloop)))
  | _, _, _, _, _, @Stmt.Unrolls.unrolled _ _ _ _ _ _ _ b' c' _ s' _ _ ho ha hb hbody, hs, hm => by
    have hclause := hm.clause ho (.inr rfl)
    have hloop := hm.unrolled ho c' b' s'
    obtain ⟨hinside, hbehind⟩ :=
      hloop.idle_of_isDeclaration rfl (hbody.isDeclaration_eq ▸ hs.2.1) b'
    rw [Stmt.sites_whileBlock]
    simp only [Stmt.sites, faultsAt_append]
    -- In the `for` loop the sites of the increment come before those of the body.
    refine .append (ho.faults_perm hs.1.2 hclause)
      (.append (.of_eq (hloop.faultsAt_items none ha.items)) (List.perm_append_comm.trans ?_))
    exact .append (hbody.faults_perm hs.2.2 hinside)
      (.of_eq (hbehind.faultsAt_items none (Expr.OptionAlike.items hb)))
  | _, _, _, _, _, .returnStmt h, _, hm =>
    Matching.faultsAt_cons (hm.violation?_returning _ (isSome_eq_of_optionRel h))
      (.of_eq (hm.faultsAt_items none (Expr.OptionAlike.items h)))
  | _, _, _, _, _, .funDecl hmask h, hs, hm =>
    Matching.faultsAt_cons (h.name_eq ▸ hm.violation?_declaration hmask _)
      (h.faults_perm hs hm .function)
  | _, _, _, _, _, .classDecl hmask h, hs, hm =>
    Matching.faultsAt_cons (hm.violation?_declaration hmask _) (h.faults_perm hs (hm.same _))

/-- The same for lists of statements, if their scope is not idle. -/
theorem Stmt.AllUnrolls.faults_perm : ∀ {mask : Mask} {ss ss' : List Stmt}
    {scopes scopes' : List Enclosing}, Stmt.AllUnrolls loops uses mask ss ss' →
    Stmt.AllShaped ss → mask.shift 0 = 0 → Matching mask scopes scopes' →
    (faultsAt (Stmt.sitesAll scopes ss)).Perm (faultsAt (Stmt.sitesAll scopes' ss'))
  | _, _, _, _, _, .nil, _, _, _ => .nil
  | _, _, _, _, _, .cons h hss, hs, hmask, hm => by
    simp only [Stmt.sitesAll, faultsAt_append]
    exact .append (h.faults_perm hs.1 (hm.holding hmask h))
      (hss.faults_perm hs.2 hmask (hm.behind hmask h))

theorem Stmt.OptionUnrolls.faults_perm : ∀ {mask : Mask} {o o' : Option Stmt}
    {scopes scopes' : List Enclosing}, Stmt.OptionUnrolls loops uses mask o o' →
    Stmt.OptionShaped o → Matching mask scopes scopes' →
    (faultsAt (Stmt.sitesOption scopes o)).Perm (faultsAt (Stmt.sitesOption scopes' o'))
  | _, _, _, _, _, .none, _, _ => .nil
  | _, _, _, _, _, .some h, hs, hm => h.faults_perm hs hm

theorem Routine.Unrolls.faults_perm : ∀ {mask : Mask} {r r' : Routine}
    {scopes scopes' : List Enclosing}, r.Unrolls loops uses mask r' → r.Shaped →
    Matching mask scopes scopes' → ∀ construct,
    (faultsAt (r.sites construct scopes)).Perm (faultsAt (r'.sites construct scopes'))
  | _, _, _, _, _, .mk h, hr, hm, construct => by
    simp only [Routine.sites, faultsAt_append]
    exact .append (.of_eq (hm.faultsAt_parameters construct _ _)) (h.faults_perm hr rfl (hm.same _))

theorem Routine.AllUnrolls.faults_perm : ∀ {mask : Mask} {rs rs' : List Routine}
    {scopes scopes' : List Enclosing}, Routine.AllUnrolls loops uses mask rs rs' →
    Routine.AllShaped rs → Matching mask scopes scopes' →
    (faultsAt (Routine.methodSites scopes rs)).Perm (faultsAt (Routine.methodSites scopes' rs'))
  | _, _, _, _, _, .nil, _, _ => .nil
  | _, _, _, _, _, .cons h hrs, hr, hm => by
    simp only [Routine.methodSites, faultsAt_append, ← h.name_eq]
    exact .append (h.faults_perm hr.1 hm _) (hrs.faults_perm hr.2 hm)

end

end

/-- **Resolving reports the same faults**, up to their order. -/
theorem resolve_faults_perm {loops : Prop} {uses : Mask → Ids} {ss ss' : List Stmt}
    (h : Stmt.AllUnrolls loops uses [] ss ss') (hs : Stmt.AllShaped ss) :
    (resolve ss).faults.Perm (resolve ss').faults := by
  rw [(tracesAt_program hs).2, (tracesAt_program (h.shaped hs)).2]
  exact h.faults_perm hs rfl .nil

/-! ## Distances -/

/-- The use of a name at a site has its distance in the table. -/
def Site.Noted (table : Std.TreeMap NodeId Nat) (limit : NodeId) (site : Site) : Prop :=
  ∀ id name, site.item.use? = some (id, name) →
    id < limit ∧ table[id]? = (visible site.place.scopes).distance? name.lexeme

/-- Ids that were given out; the second has the distance of the first with the idle scopes counted
in. -/
def Pairing.Shifted (P : Pairing) (mask : Mask) : Ids := fun i j =>
  i < P.leftLimit ∧ j < P.rightLimit ∧ P.right[j]? = P.left[i]?.map mask.shift

mutual

/-- The uses that the walk finds are those of the items of an expression, at their distances. -/
theorem Expr.uses_eq_items (Γ : Scopes) : ∀ e : Expr, e.uses Γ none =
    e.items.filterMap fun item => item.use?.map fun u => (u.1, Γ.distance? u.2.lexeme)
  | .constant _ | .var _ _ | .this _ _ => rfl
  | .grouping inner | .unary _ inner | .get inner _ => inner.uses_eq_items Γ
  | .binary left _ right | .logical left _ right | .set left _ right => by
    simp only [Expr.uses, Expr.items, List.filterMap_append, left.uses_eq_items Γ,
      right.uses_eq_items Γ]
  | .conditional condition onTrue onFalse => by
    simp only [Expr.uses, Expr.items, List.filterMap_append, condition.uses_eq_items Γ,
      onTrue.uses_eq_items Γ, onFalse.uses_eq_items Γ]
  | .assign id name value => by
    simp only [Expr.uses, Expr.items, List.filterMap_append, value.uses_eq_items Γ]
    rfl
  | .call callee _ arguments => by
    simp only [Expr.uses, Expr.items, List.filterMap_append, callee.uses_eq_items Γ,
      Expr.usesAll_eq_items Γ arguments]

theorem Expr.usesAll_eq_items (Γ : Scopes) : ∀ es : List Expr, Expr.usesAll Γ none es =
    (Expr.itemsAll es).filterMap fun item => item.use?.map fun u => (u.1, Γ.distance? u.2.lexeme)
  | [] => rfl
  | e :: es => by
    simp only [Expr.usesAll, Expr.itemsAll, List.filterMap_append, e.uses_eq_items Γ,
      Expr.usesAll_eq_items Γ es]

end

/-- The uses at all the sites are noted. -/
def Site.AllNoted (table : Std.TreeMap NodeId Nat) (limit : NodeId) (sites : List Site) : Prop :=
  ∀ site ∈ sites, site.Noted table limit

/-- Sites one behind the other are noted if both lists are. -/
theorem Site.allNoted_append {table : Std.TreeMap NodeId Nat} {limit : NodeId}
    {xs ys : List Site} : Site.AllNoted table limit (xs ++ ys) ↔
      Site.AllNoted table limit xs ∧ Site.AllNoted table limit ys :=
  List.forall_mem_append

theorem Site.allNoted_cons {table : Std.TreeMap NodeId Nat} {limit : NodeId} {site : Site}
    {sites : List Site} : Site.AllNoted table limit (site :: sites) ↔
      site.Noted table limit ∧ Site.AllNoted table limit sites :=
  List.forall_mem_cons

section

variable {P : Pairing} {mask : Mask} {scopes scopes' : List Enclosing} {own : Option Token}

/-- The distance of each use is noted. -/
theorem Site.AllNoted.of_mem {table : Std.TreeMap NodeId Nat} {limit : NodeId} {items : List Item}
    (h : Site.AllNoted table limit (Position.sites ⟨scopes, own⟩ items)) (Γ : Scopes)
    (f : Option Nat → Option Nat)
    (hΓ : ∀ x, (visible scopes).distance? x = f (Γ.distance? x)) :
    ∀ u ∈ items.filterMap fun item => item.use?.map fun u => (u.1, Γ.distance? u.2.lexeme),
      u.1 < limit ∧ table[u.1]? = f u.2 := by
  intro u hu
  obtain ⟨item, hitem, hu⟩ := List.mem_filterMap.mp hu
  obtain ⟨⟨id, name⟩, huse, rfl⟩ := Option.map_eq_some_iff.mp hu
  have hnoted := h _ (List.mem_map_of_mem hitem) id name huse
  exact ⟨hnoted.1, hnoted.2.trans (hΓ name.lexeme)⟩

/-- Where both programs are noted, the distances in the second are those in the first with the idle
scopes counted in. -/
theorem Expr.Alike.shifted (hm : Matching mask scopes scopes') {e e' : Expr}
    (h : e.Alike Eq .any e')
    (hl : Site.AllNoted P.left P.leftLimit (Position.sites ⟨scopes, own⟩ e.items))
    (hr : Site.AllNoted P.right P.rightLimit (Position.sites ⟨scopes', own⟩ e'.items)) :
    e.Alike Eq (P.Shifted mask) e' := by
  have hjoins : (P.Shifted mask).Joins (fun i d => i < P.leftLimit ∧ P.left[i]? = d)
      (fun j d => j < P.rightLimit ∧ P.right[j]? = d.map mask.shift) :=
    fun i j d hi hj => ⟨hi.1, hj.1, hi.2 ▸ hj.2⟩
  have hleft := hl.of_mem (visible scopes) id fun _ => rfl
  have hright := hr.of_mem (visible scopes) (Option.map mask.shift) fun x => by
    rw [hm.visible, Scopes.distance?_padded]
  rw [← Expr.uses_eq_items] at hleft hright
  exact h.recorded hjoins hleft hright

theorem Expr.OptionAlike.shifted (hm : Matching mask scopes scopes') {o o' : Option Expr}
    (h : Expr.OptionAlike Eq .any o o')
    (hl : Site.AllNoted P.left P.leftLimit (Position.sites ⟨scopes, own⟩ (Expr.itemsOption o)))
    (hr : Site.AllNoted P.right P.rightLimit
      (Position.sites ⟨scopes', own⟩ (Expr.itemsOption o'))) :
    Expr.OptionAlike Eq (P.Shifted mask) o o' := by
  cases h with
  | none => exact .none
  | some h => exact .some (h.shifted hm hl hr)

/-- The condition of the loop and the one that it becomes. -/
theorem Expr.ConditionAlike.shifted (hm : Matching mask scopes scopes') {o : Option Expr}
    {c' : Expr} (h : Expr.ConditionAlike .any o c')
    (hl : Site.AllNoted P.left P.leftLimit (Position.sites ⟨scopes, own⟩ (Expr.itemsOption o)))
    (hr : Site.AllNoted P.right P.rightLimit (Position.sites ⟨scopes', own⟩ c'.items)) :
    Expr.ConditionAlike (P.Shifted mask) o c' := by
  cases h with
  | none => exact .none
  | some h => exact .some (h.shifted hm hl hr)

end

section

variable {loops : Prop} {P : Pairing}

mutual

/-- Where the distances in both trees are noted, those in the second are those in the first with the
idle scopes counted in. -/
theorem Stmt.Unrolls.shifted : ∀ {mask : Mask} {s s' : Stmt} {scopes scopes' : List Enclosing},
    s.Unrolls loops Mask.any mask s' → s.Shaped → Matching mask scopes scopes' →
    Site.AllNoted P.left P.leftLimit (s.sites scopes) →
    Site.AllNoted P.right P.rightLimit (s'.sites scopes') → s.Unrolls loops P.Shifted mask s'
  | _, _, _, _, _, .exprStmt h, _, hm, hl, hr => .exprStmt (h.shifted hm hl hr)
  | _, _, _, _, _, .printStmt h, _, hm, hl, hr => .printStmt (h.shifted hm hl hr)
  | _, _, _, _, _, .varDecl hmask h, _, hm, hl, hr =>
    .varDecl hmask (Expr.OptionAlike.shifted hm h (Site.allNoted_cons.mp hl).2
      (Site.allNoted_cons.mp hr).2)
  | _, _, _, _, _, .block h, hs, hm, hl, hr => .block (h.shifted hs rfl (hm.same _) hl hr)
  | _, _, _, _, _, .ifStmt h ht ho, hs, hm, hl, hr => by
    simp only [Stmt.sites, Site.allNoted_append] at hl hr
    exact .ifStmt (h.shifted hm hl.1 hr.1) (ht.shifted hs.1.2 hm hl.2.1 hr.2.1)
      (ho.shifted hs.2.2 hm hl.2.2 hr.2.2)
  | _, _, _, _, _, .whileStmt h hbody, hs, hm, hl, hr => by
    simp only [Stmt.sites, Site.allNoted_append] at hl hr
    exact .whileStmt (h.shifted hm hl.1 hr.1) (hbody.shifted hs.2 hm hl.2 hr.2)
  | _, _, _, _, _, .forStmt ho ha hb hbody, hs, hm, hl, hr => by
    have hclause := hm.clause ho (.inl rfl)
    have hloop := hm.loop ho
    simp only [Stmt.sites, Site.allNoted_append] at hl hr
    exact .forStmt (ho.shifted hs.1.2 hclause hl.1 hr.1)
      (Expr.OptionAlike.shifted hloop ha hl.2.1 hr.2.1)
      (Expr.OptionAlike.shifted hloop hb hl.2.2.1 hr.2.2.1)
      (hbody.shifted hs.2.2 hloop hl.2.2.2 hr.2.2.2)
  | _, _, _, _, _, @Stmt.Unrolls.unrolled _ _ _ _ _ _ _ b' c' _ s' hloops hinitial ho ha hb hbody,
      hs, hm, hl, hr => by
    have hclause := hm.clause ho (.inr rfl)
    have hloop := hm.unrolled ho c' b' s'
    obtain ⟨hinside, hbehind⟩ :=
      hloop.idle_of_isDeclaration rfl (hbody.isDeclaration_eq ▸ hs.2.1) b'
    rw [Stmt.sites_whileBlock] at hr
    simp only [Stmt.sites, Site.allNoted_append] at hl hr
    exact .unrolled hloops hinitial (ho.shifted hs.1.2 hclause hl.1 hr.1)
      (ha.shifted hloop hl.2.1 hr.2.1)
      (Expr.OptionAlike.shifted hbehind hb hl.2.2.1 hr.2.2.2)
      (hbody.shifted hs.2.2 hinside hl.2.2.2 hr.2.2.1)
  | _, _, _, _, _, .returnStmt h, _, hm, hl, hr =>
    .returnStmt (Expr.OptionAlike.shifted hm h (Site.allNoted_cons.mp hl).2
      (Site.allNoted_cons.mp hr).2)
  | _, _, _, _, _, .funDecl hmask h, hs, hm, hl, hr =>
    .funDecl hmask (h.shifted hs hm (Site.allNoted_cons.mp hl).2 (Site.allNoted_cons.mp hr).2)
  | _, _, _, _, _, .classDecl hmask h, hs, hm, hl, hr =>
    .classDecl hmask (h.shifted hs (hm.same _) (Site.allNoted_cons.mp hl).2
      (Site.allNoted_cons.mp hr).2)

/-- The same for lists of statements, if their scope is not idle. -/
theorem Stmt.AllUnrolls.shifted : ∀ {mask : Mask} {ss ss' : List Stmt}
    {scopes scopes' : List Enclosing}, Stmt.AllUnrolls loops Mask.any mask ss ss' →
    Stmt.AllShaped ss → mask.shift 0 = 0 → Matching mask scopes scopes' →
    Site.AllNoted P.left P.leftLimit (Stmt.sitesAll scopes ss) →
    Site.AllNoted P.right P.rightLimit (Stmt.sitesAll scopes' ss') →
    Stmt.AllUnrolls loops P.Shifted mask ss ss'
  | _, _, _, _, _, .nil, _, _, _, _, _ => .nil
  | _, _, _, _, _, .cons h hss, hs, hmask, hm, hl, hr => by
    simp only [Stmt.sitesAll, Site.allNoted_append] at hl hr
    exact .cons (h.shifted hs.1 (hm.holding hmask h) hl.1 hr.1)
      (hss.shifted hs.2 hmask (hm.behind hmask h) hl.2 hr.2)

theorem Stmt.OptionUnrolls.shifted : ∀ {mask : Mask} {o o' : Option Stmt}
    {scopes scopes' : List Enclosing}, Stmt.OptionUnrolls loops Mask.any mask o o' →
    Stmt.OptionShaped o → Matching mask scopes scopes' →
    Site.AllNoted P.left P.leftLimit (Stmt.sitesOption scopes o) →
    Site.AllNoted P.right P.rightLimit (Stmt.sitesOption scopes' o') →
    Stmt.OptionUnrolls loops P.Shifted mask o o'
  | _, _, _, _, _, .none, _, _, _, _ => .none
  | _, _, _, _, _, .some h, hs, hm, hl, hr => .some (h.shifted hs hm hl hr)

theorem Routine.Unrolls.shifted : ∀ {mask : Mask} {r r' : Routine}
    {scopes scopes' : List Enclosing} {construct : Construct},
    r.Unrolls loops Mask.any mask r' → r.Shaped → Matching mask scopes scopes' →
    Site.AllNoted P.left P.leftLimit (r.sites construct scopes) →
    Site.AllNoted P.right P.rightLimit (r'.sites construct scopes') →
    r.Unrolls loops P.Shifted mask r'
  | _, _, _, _, _, _, .mk h, hr, hm, hleft, hright =>
    .mk (h.shifted hr rfl (hm.same _) (Site.allNoted_append.mp hleft).2
      (Site.allNoted_append.mp hright).2)

theorem Routine.AllUnrolls.shifted : ∀ {mask : Mask} {rs rs' : List Routine}
    {scopes scopes' : List Enclosing}, Routine.AllUnrolls loops Mask.any mask rs rs' →
    Routine.AllShaped rs → Matching mask scopes scopes' →
    Site.AllNoted P.left P.leftLimit (Routine.methodSites scopes rs) →
    Site.AllNoted P.right P.rightLimit (Routine.methodSites scopes' rs') →
    Routine.AllUnrolls loops P.Shifted mask rs rs'
  | _, _, _, _, _, .nil, _, _, _, _ => .nil
  | _, _, _, _, _, .cons h hrs, hr, hm, hleft, hright => by
    simp only [Routine.methodSites, Site.allNoted_append, ← h.name_eq] at hleft hright
    exact .cons (h.shifted hr.1 hm hleft.1 hright.1) (hrs.shifted hr.2 hm hleft.2 hright.2)

end

end

/-- Ids from `first` up to `limit`, each given out once. -/
structure NewIds (first limit : NodeId) (ids : List NodeId) : Prop where
  le : first ≤ limit
  nodup : ids.Nodup
  bounds : ∀ id ∈ ids, first ≤ id ∧ id < limit

/-- The sites of a program without faults are noted in a table that its distances were entered
into. -/
theorem allNoted_resolve {ss : List Stmt} (hs : Stmt.AllShaped ss)
    (hclean : (resolve ss).faults = []) {first limit : NodeId}
    (hids : NewIds first limit (Stmt.idsAll ss)) {D : Std.TreeMap NodeId Nat}
    (hfresh : ∀ id, first ≤ id → D[id]? = none) :
    Site.AllNoted (D.insertMany (resolve ss).distances) limit (programSites ss) := by
  obtain ⟨hfound, hfaults⟩ := tracesAt_program hs
  rw [hfaults] at hclean
  rw [hfound]
  intro site hsite id name huse
  have hbinds := getElem?_insertMany_foundAt hclean ((ids_programSites ss).symm ▸ hids.nodup)
    (fun id hid => hfresh id (hids.bounds id (ids_programSites ss ▸ hid)).1) hsite huse
  have hid : id ∈ Stmt.idsAll ss :=
    ids_programSites ss ▸ Site.mem_ids.mpr ⟨site, hsite, name, huse⟩
  refine ⟨(hids.bounds id hid).2, Option.ext fun d => ?_⟩
  rw [hbinds, Position.binds_iff]

end LoxLang
