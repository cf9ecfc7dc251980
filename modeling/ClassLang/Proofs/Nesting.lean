import ClassLang.Env.Lookup
import ClassLang.Proofs.Check.Points

/-!
# Methods lie within classes, scopes within methods

Whatever is done with an environment, in whatever order and with whatever failures, an open method is
a method of the open class (`Env.open_method_owned`): only the class that is open gains methods, and
it cannot be left before the method is.

With the scopes of a method it is otherwise. Leaving a scope closes the innermost frame, be it that of
the arguments, and leaving a method closes one frame, be it not the last. So the frames belong to the
open method, with its receiver in the outermost, as long as scopes are left in pairs with entering
them, and only so long (`Env.nested_iff_balanced`).
-/

namespace ClassLang

namespace Env

variable {env env' : Env} {op : Op}

/-! ### The open method and the open class -/

/-- The open method is one of the open class, which has the record that its name stands for. -/
structure Owned (env : Env) : Prop where
  inStep : env.table.InStep
  method : ∀ m, env.method = some m → env.table.current = some m.owner ∧
    ∃ c, env.table.find? m.owner = some c ∧ c.methods.contains m.signature = true

theorem contains_of_change {o : ClassTable.Op} {f : ClassInfo → ClassInfo}
    (hf : o.change? = some f) {c : ClassInfo} {s : Signature} (h : c.methods.contains s = true) :
    (f c).methods.contains s = true := by
  rcases ClassTable.Op.methods_of_change hf c with hm | ⟨u, hm⟩
  · rw [hm]
    exact h
  · rw [hm]
    exact MethodSet.contains_insert_iff.mpr (.inl h)

theorem Effect.inStep (heff : env.Effect op env') (h : env.table.InStep) : env'.table.InStep := by
  rcases heff.on_table with htable | ⟨o, ho, -⟩
  · rw [htable]
    exact h
  · exact ho.inStep h

theorem Effect.owned (heff : env.Effect op env') (h : env.Owned) : env'.Owned := by
  refine ⟨heff.inStep h.inStep, fun m hm => ?_⟩
  cases heff with
  | @table _ o t ho heff =>
    obtain ⟨hopen, c, hc, hcontains⟩ := h.method m hm
    cases heff with
    | enter hclosed hnew =>
      -- a class is open, so no other is entered
      rw [hopen] at hclosed
      cases hclosed
    | @change _ f cls d hf hopen' hd =>
      obtain rfl : m.owner = cls := Option.some.inj (hopen.symm.trans hopen')
      refine ⟨hopen, f c, ?_, contains_of_change hf hcontains⟩
      show (env.table.update m.owner f).find? m.owner = some (f c)
      rw [ClassTable.find?_update, if_pos rfl, hc, Option.map_some]
    | leave => cases op <;> cases ho
  | leaveClass hmethod =>
    rw [show env.method = some m from hm] at hmethod
    cases hmethod
  | @enterMethod s cls c hmethod hopen hc =>
    obtain rfl : (⟨c.name, s⟩ : OpenMethod) = m := Option.some.inj hm
    obtain rfl := h.inStep.named cls c hc
    refine ⟨hopen, (c.insertMethod s).2, ?_, ?_⟩
    · show (env.table.update c.name _).find? c.name = some (c.insertMethod s).2
      rw [ClassTable.find?_update, if_pos rfl, hc, Option.map_some]
    · exact MethodSet.contains_insert_iff.mpr (.inr (Signature.sameKey_self s))
  | leaveMethod => cases hm
  | enterScope => exact h.method m hm
  | leaveScope => exact h.method m hm
  | declareLocal => exact h.method m hm

theorem owned_step (op : Op) (env : Env) (h : env.Owned) : (op.step env).state.Owned :=
  op.keeps (fun _ heff => heff.owned h) h

/-- **An open method is a method of the open class**, after any operations and checks, also after
checks that broke off; and an operation that fails changes nothing. -/
theorem open_method_owned (calls : List Call) :
    (∀ m, (afterCalls .empty calls).method = some m →
      ∃ c, (afterCalls .empty calls).table.current = some m.owner ∧
        (afterCalls .empty calls).table.find? m.owner = some c ∧ c.name = m.owner ∧
        c.methods.contains m.signature = true) ∧
    ∀ (env : Env) (op : Op) e env', op.step env = .error e env' →
      env'.table = env.table ∧ env'.scopes = env.scopes ∧ env'.method = env.method := by
  have howned : (afterCalls .empty calls).Owned :=
    afterCalls_keeps owned_step calls ⟨.empty, fun m hm => (nomatch hm)⟩
  refine ⟨fun m hm => ?_, fun env op e env' he => ?_⟩
  · obtain ⟨hopen, c, hc, hcontains⟩ := howned.method m hm
    exact ⟨c, hopen, hc, howned.inStep.named _ c hc, hcontains⟩
  · rw [Op.eq_of_error he]
    exact ⟨rfl, rfl, rfl⟩

/-- A class whose method has a fault within a block:

    class A { void f() { { x; } } } -/
def brokenOff : Program := ⟨[⟨.unknown, "A", none, [
  .method .void "f" ⟨.unknown, [], [
    .block .unknown [.eval .unknown (.var ⟨.unknown, .empty⟩ none "x" .empty .empty)]], .empty⟩]⟩]⟩

/-- The check of `brokenOff` leaves `f` open, as a method of `A`, which then cannot be left. -/
theorem brokenOff_owned :
    (afterCalls .empty [.checkProgram brokenOff]).method = some ⟨"A", ⟨"f", [], .void⟩⟩ ∧
      (∃ c, (afterCalls .empty [.checkProgram brokenOff]).table.find? "A" = some c ∧
        c.methods.contains ⟨"f", [], .void⟩ = true) ∧
      ∃ e env', Op.leaveClass.step (afterCalls .empty [.checkProgram brokenOff]) = .error e env' ∧
        env'.method = some ⟨"A", ⟨"f", [], .void⟩⟩ := by
  have hmethod : (afterCalls .empty [.checkProgram brokenOff]).method =
      some ⟨"A", ⟨"f", [], .void⟩⟩ := by decide +kernel
  obtain ⟨howned, herror⟩ := open_method_owned [.checkProgram brokenOff]
  obtain ⟨c, -, hfind, -, hcontains⟩ := howned _ hmethod
  refine ⟨hmethod, ⟨c, hfind, hcontains⟩, ?_⟩
  have hfails : (Op.leaveClass.step (afterCalls .empty [.checkProgram brokenOff])).toExcept.isOk =
      false := by decide +kernel
  cases hr : Op.leaveClass.step (afterCalls .empty [.checkProgram brokenOff]) with
  | ok u env' =>
    rw [hr] at hfails
    cases hfails
  | error e env' => exact ⟨e, env', rfl, (herror _ _ _ _ hr).2.2.trans hmethod⟩

/-! ### The open method and the open scopes -/

/-- Without a method there is no scope, no receiver and no local; within one the receiver is of the
class of the method. -/
structure Nested (env : Env) : Prop where
  outside : env.method = none →
    env.scopes = .empty ∧ env.receiver? = none ∧ ∀ x, env.findLocal? x = none
  inside : ∀ m, env.method = some m → env.receiver? = some (.cls m.owner)

/-- The environments that operations come to, the first of them the one they start from. -/
def trace (env : Env) : List Op → List Env
  | [] => [env]
  | op :: rest => env :: trace (op.step env).state rest

/-- In a method, a scope is left only if one is open besides the frame of the arguments, and the
method only if none is. -/
def Op.balanced (env : Env) : Op → Bool
  | leaveScope => !env.inMethod || decide (1 < env.scopes.depth)
  | leaveMethod => !env.inMethod || decide (env.scopes.depth = 1)
  | _ => true

/-- Every scope that is left was entered in the same method, and every method is left after its
scopes. -/
def balanced (env : Env) : List Op → Bool
  | [] => true
  | op :: rest => op.balanced env && balanced (op.step env).state rest

/-- The frames of a method, the innermost first: those of its blocks, in which no receiver is
declared, and that of its arguments, in which it is. -/
inductive Framed : Scopes → Option OpenMethod → Prop
  | outside : Framed .empty none
  | inside {m : OpenMethod} (blocks : List (NameMap Entity)) {args : NameMap Entity}
    (hblocks : ∀ b ∈ blocks, b.get? receiverName = none)
    (hargs : args.get? receiverName = some (.value (.cls m.owner))) :
    Framed ⟨blocks ++ [args]⟩ (some m)

/-- Where the frames are those of the open method, they hold its receiver. -/
theorem Framed.nested (h : Framed env.scopes env.method) : env.Nested := by
  obtain ⟨t, scopes, method⟩ := env
  cases h with
  | outside =>
    refine ⟨fun _ => ⟨rfl, rfl, fun x => ?_⟩, fun m hm => (nomatch hm)⟩
    unfold findLocal?
    split <;> rfl
  | @inside m blocks args hblocks hargs =>
    have hnone : blocks.findSome? (·.get? receiverName) = none :=
      List.findSome?_eq_none_iff.mpr hblocks
    refine ⟨fun hm => (nomatch hm), fun m' hm => ?_⟩
    obtain rfl : m = m' := Option.some.inj hm
    simp only [receiver?, Scopes.lookup, List.findSome?_append, hnone, List.findSome?_singleton,
      hargs, Option.none_or]
    rfl

section

variable {t : ClassTable} {m : OpenMethod} {blocks : List (NameMap Entity)} {args : NameMap Entity}

theorem balanced_leaveScope_iff :
    Op.leaveScope.balanced ⟨t, ⟨blocks ++ [args]⟩, some m⟩ = true ↔ blocks ≠ [] := by
  simp [Op.balanced, inMethod, Scopes.depth, List.length_pos_iff]

theorem balanced_leaveMethod_iff :
    Op.leaveMethod.balanced ⟨t, ⟨blocks ++ [args]⟩, some m⟩ = true ↔ blocks = [] := by
  simp [Op.balanced, inMethod, Scopes.depth]

end

/-- A step of balanced operations leaves the frames of the open method. -/
theorem Effect.framed (heff : env.Effect op env') (hbalanced : op.balanced env = true)
    (hop : ∀ e, op ≠ .declareLocal receiverName e) (h : Framed env.scopes env.method) :
    Framed env'.scopes env'.method := by
  obtain ⟨t, scopes, method⟩ := env
  cases heff with
  | table => exact h
  | leaveClass => exact h
  | @enterMethod s cls c hmethod hopen hc =>
    obtain rfl : method = none := hmethod
    cases h with
    | outside =>
      refine Framed.inside [] (List.forall_mem_nil _) ?_
      rw [NameMap.get?_insert, if_pos rfl]
      rfl
  | @leaveMethod m frame rest hmethod hframes =>
    obtain rfl : method = some m := hmethod
    cases h with
    | @inside _ blocks args hblocks hargs =>
      obtain rfl := balanced_leaveMethod_iff.mp hbalanced
      obtain ⟨-, rfl⟩ := List.cons.inj (show args :: [] = frame :: rest from hframes)
      exact .outside
  | @enterScope m hmethod =>
    obtain rfl : method = some m := hmethod
    cases h with
    | @inside _ blocks args hblocks hargs =>
      exact Framed.inside (.empty :: blocks)
        (List.forall_mem_cons.mpr ⟨rfl, hblocks⟩) hargs
  | @leaveScope m frame rest hmethod hframes =>
    obtain rfl : method = some m := hmethod
    cases h with
    | @inside _ blocks args hblocks hargs =>
      cases blocks with
      | nil => exact absurd rfl (balanced_leaveScope_iff.mp hbalanced)
      | cons b blocks =>
        obtain ⟨-, rfl⟩ := List.cons.inj (show b :: (blocks ++ [args]) = frame :: rest from hframes)
        exact .inside blocks (List.forall_mem_cons.mp hblocks).2 hargs
  | @declareLocal m name e frame rest hmethod hframes =>
    obtain rfl : method = some m := hmethod
    have hname : receiverName ≠ name := fun heq => hop e (heq ▸ rfl)
    cases h with
    | @inside _ blocks args hblocks hargs =>
      cases blocks with
      | nil =>
        obtain ⟨rfl, rfl⟩ := List.cons.inj (show args :: [] = frame :: rest from hframes)
        refine Framed.inside [] hblocks ?_
        rw [NameMap.get?_insert, if_neg hname]
        exact hargs
      | cons b blocks =>
        obtain ⟨rfl, rfl⟩ := List.cons.inj (show b :: (blocks ++ [args]) = frame :: rest from hframes)
        obtain ⟨hb, hblocks⟩ := List.forall_mem_cons.mp hblocks
        refine Framed.inside (b.insert name e :: blocks)
          (List.forall_mem_cons.mpr ⟨?_, hblocks⟩) hargs
        rw [NameMap.get?_insert, if_neg hname]
        exact hb

/-- The first step out of balance leaves a method without its receiver, or frames without a method. -/
theorem not_nested_of_unbalanced (hbalanced : op.balanced env ≠ true)
    (h : Framed env.scopes env.method) : ¬ (op.step env).state.Nested := by
  obtain ⟨t, scopes, method⟩ := env
  intro hnested
  cases h with
  | outside => cases op <;> exact hbalanced rfl
  | @inside m blocks args hblocks hargs =>
    cases op with
    | leaveScope =>
      have hempty : blocks = [] := by
        rw [ne_eq, balanced_leaveScope_iff, not_not] at hbalanced
        exact hbalanced
      subst hempty
      -- the arguments are gone, with the method still open
      have hreceiver := hnested.inside m rfl
      cases hreceiver
    | leaveMethod =>
      rw [ne_eq, balanced_leaveMethod_iff] at hbalanced
      cases blocks with
      | nil => exact hbalanced rfl
      | cons b blocks =>
        -- the arguments are left behind
        have hscopes : (⟨blocks ++ [args]⟩ : Scopes) = .empty := (hnested.outside rfl).1
        have hframes : blocks ++ [args] = [] := congrArg Scopes.frames hscopes
        simp at hframes
    | _ => exact hbalanced rfl

theorem nested_iff_balanced_from : ∀ (ops : List Op) {env : Env},
    Framed env.scopes env.method → (∀ e, Op.declareLocal receiverName e ∉ ops) →
    ((∀ env' ∈ env.trace ops, env'.Nested) ↔ balanced env ops = true)
  | [], env, h, _ => by
    refine ⟨fun _ => rfl, fun _ => ?_⟩
    exact List.forall_mem_singleton.mpr h.nested
  | op :: rest, env, h, hops => by
    rw [trace, List.forall_mem_cons, balanced, Bool.and_eq_true]
    have hop : ∀ e, op ≠ .declareLocal receiverName e :=
      fun e he => hops e (he ▸ List.mem_cons_self ..)
    have hrest : ∀ e, Op.declareLocal receiverName e ∉ rest :=
      fun e he => hops e (List.mem_cons_of_mem _ he)
    by_cases hb : op.balanced env = true
    · have hnext : Framed (op.step env).state.scopes (op.step env).state.method :=
        op.keeps (I := fun env => Framed env.scopes env.method)
          (fun _ heff => heff.framed hb hop h) h
      rw [nested_iff_balanced_from rest hnext hrest]
      exact ⟨fun hall => ⟨hb, hall.2⟩, fun hall => ⟨h.nested, hall.2⟩⟩
    · refine ⟨fun hall => ?_, fun hall => absurd hall.1 hb⟩
      have hmem : (op.step env).state ∈ trace (op.step env).state rest := by
        cases rest <;> exact List.mem_cons_self ..
      exact absurd (hall.2 _ hmem) (not_nested_of_unbalanced hb h)

/-- **Scopes lie within methods just as long as operations are balanced.** Take any operations on a
new environment, failed ones among them, that declare no local under the receiver's name. Without a
method there is at no time a scope, a receiver or a local, and within one the receiver is at all
times of the class of the method, if and only if every scope that is left was entered in the same
method and every method is left after its scopes. -/
theorem nested_iff_balanced {ops : List Op} (hops : ∀ e, Op.declareLocal receiverName e ∉ ops) :
    (∀ env ∈ trace .empty ops, env.Nested) ↔ balanced .empty ops = true :=
  nested_iff_balanced_from ops .outside hops

/-- A method with a block, left in order; operations that are refused do not count. -/
def blockwise : List Op := [
  .leaveScope, .enterClass "A", .enterMethod ⟨"f", [], .void⟩, .enterScope,
  .declareLocal "x" (.value .int), .enterMethod ⟨"g", [], .void⟩, .leaveScope, .leaveClass,
  .leaveMethod, .leaveMethod, .leaveClass]

theorem blockwise_nested : (∀ e, Op.declareLocal receiverName e ∉ blockwise) ∧
    balanced .empty blockwise = true ∧ ∀ env ∈ trace .empty blockwise, env.Nested := by
  have hops : ∀ e, Op.declareLocal receiverName e ∉ blockwise := by
    intro e he
    simp [blockwise, receiverName] at he
  have hbalanced : balanced .empty blockwise = true := by decide +kernel
  exact ⟨hops, hbalanced, (nested_iff_balanced hops).mpr hbalanced⟩

/-- A method of `A` is left with a scope still open, and in a method of `B` a scope is left that was
not entered. -/
def straying : List Op := [
  .enterClass "A", .enterMethod ⟨"f", [], .void⟩, .enterScope, .leaveMethod, .leaveClass,
  .enterClass "B", .enterMethod ⟨"g", [], .void⟩, .leaveScope]

/-- The receiver of the method of `A` outlives the method: it is there with no method open, and it is
the receiver while a method of `B` is open. -/
theorem straying_receiver : (∀ e, Op.declareLocal receiverName e ∉ straying) ∧
    (∃ env ∈ trace .empty straying, env.method = none ∧ env.scopes ≠ .empty ∧
      env.receiver? = some (.cls "A")) ∧
    ∃ env ∈ trace .empty straying, env.method = some ⟨"B", ⟨"g", [], .void⟩⟩ ∧
      env.receiver? = some (.cls "A") := by
  refine ⟨fun e he => ?_, by decide +kernel, by decide +kernel⟩
  simp [straying] at he

end Env

end ClassLang
