import Simian.Proofs.Evaluation.Reached

/-!
# What holds throughout an evaluation

A property that single steps keep holds at every point that is reached from one where it holds, and
of what is given there, as long as no built-in function that is called on the way breaks it. The
induction is on the points, so what is asked of built-in functions concerns the calls only that are
really made; a property that they never break is kept whatever is evaluated.
-/

namespace Simian

open Machine Value
set_option autoImplicit false

namespace Eval

/-- The values of expressions, or the signal that one of them gave. -/
inductive GivesList (P : Value → Prop) : Except Value (List Value) → Prop where
  | values {vs : List Value} : (∀ v ∈ vs, P v) → GivesList P (.ok vs)
  | signal {s : Value} : Gives P s → GivesList P (.error s)

namespace StepInvariant

variable {I : StepInvariant} {verbosity : Nat}

def Admits (I : StepInvariant) : Task → Prop
  | .run id program => ∀ n ∈ program, I.node id n
  | .node id n => I.node id n
  | .statements id last ss => Gives I.value last ∧ ∀ n ∈ ss, I.node id n
  | .expressions id es => ∀ n ∈ es, I.node id n
  | .call f args => I.value f ∧ ∀ a ∈ args, I.value a

/-- The property holds at a point, of its task and of its machine. -/
structure At (I : StepInvariant) (p : Point) : Prop where
  store : I.store p.machine.store
  task : I.Admits p.task

/-- The property holds when the task at a point ends, of what it gives and of its machine. -/
def Ends (I : StepInvariant) (verbosity : Nat) (p : Point) : Prop :=
  match p.task with
  | .run id program => I.Kept (Settles I.value) (runUpTo p.limit verbosity id program p.machine)
  | .node id n =>
    I.Kept (Gives I.value) (Eval.node verbosity (callUpTo verbosity p.limit) id n p.machine)
  | .statements id last ss =>
    I.Kept (Gives I.value) (statements verbosity (callUpTo verbosity p.limit) id last ss p.machine)
  | .expressions id es =>
    I.Kept (GivesList I.value) (expressions verbosity (callUpTo verbosity p.limit) id es p.machine)
  | .call f args => I.Kept (Settles I.value) (callUpTo verbosity p.limit f args p.machine)

/-- No built-in function that is called from a point on breaks the property. -/
def Suits (I : StepInvariant) (verbosity : Nat) (p : Point) : Prop :=
  ∀ b args k m, Reached verbosity p ⟨.call (.builtin b) args, k, m⟩ → (∀ a ∈ args, I.value a) →
    Settles I.value (b.result args)

theorem Suits.begins {p q : Point} (h : I.Suits verbosity p) (hq : Begins verbosity p q) :
    I.Suits verbosity q :=
  fun b args k m hr => h b args k m (.head hq hr)

/-! ## Points -/

/-- A part that gives no signal gives a value with the property. -/
theorem Ends.value {id : ScopeId} {n : Node} {k : Nat} {v : Value} {m m' : Machine}
    (h : I.Ends verbosity ⟨.node id n, k, m⟩)
    (hv : Eval.node verbosity (callUpTo verbosity k) id n m = .ok v m')
    (hs : v.isSignal = false) : I.store m'.store ∧ I.value v := by
  have hkept : I.Kept (Gives I.value) (Eval.node verbosity (callUpTo verbosity k) id n m) := h
  obtain ⟨hm', hgives⟩ := hkept.of_ok hv
  exact ⟨hm', hgives.of_not_isSignal hs⟩

/-- The property holds where a part begins, if it holds when the parts before it end. -/
theorem At.begins {p q : Point} (hp : I.At p)
    (hends : ∀ r, Begins verbosity p r → I.At r → I.Ends verbosity r)
    (h : Begins verbosity p q) : I.At q := by
  obtain ⟨hm, ht⟩ := hp
  have hfirst {id : ScopeId} {n c : Node} {k : Nat} {m : Machine} (hp : p = ⟨.node id n, k, m⟩)
      (hc : n.first? = some c) : I.Ends verbosity ⟨.node id c, k, m⟩ := by
    subst hp
    exact hends _ (.first hc) ⟨hm, I.part ht (Node.mem_parts_of_first? hc)⟩
  cases h with
  | program hnote => exact ⟨((keeps_note _ _ _).ok hm hnote).1, .value I.null, ht⟩
  | block hss =>
    exact ⟨hm, .value I.null, fun c hc => I.part ht (Node.mem_parts_of_statements? hss hc)⟩
  | statement => exact ⟨hm, ht.2 _ List.mem_cons_self⟩
  | statements hv hs =>
    have hhead := hends _ .statement ⟨hm, ht.2 _ List.mem_cons_self⟩
    obtain ⟨hm', hval⟩ := hhead.value hv hs
    exact ⟨hm', .value hval, fun c hc => ht.2 c (List.mem_cons_of_mem _ hc)⟩
  | first hc => exact ⟨hm, I.part ht (Node.mem_parts_of_first? hc)⟩
  | second hc hd hv hs =>
    obtain ⟨hm', -⟩ := (hfirst rfl hc).value hv hs
    exact ⟨hm', I.part ht (Node.mem_parts_of_second? hd)⟩
  | branch hv hs hnote hd =>
    obtain ⟨hm', -⟩ := (hfirst rfl rfl).value hv hs
    exact ⟨((keeps_note _ _ _).ok hm' hnote).1, I.part ht (Node.mem_parts_of_branch hd)⟩
  | elements => exact ⟨hm, fun c hc => I.part ht hc⟩
  | arguments hf hs =>
    obtain ⟨hm', -⟩ := (hfirst rfl rfl).value hf hs
    exact ⟨hm', fun c hc => I.part ht (List.mem_cons_of_mem _ hc)⟩
  | expression => exact ⟨hm, ht _ List.mem_cons_self⟩
  | expressions hv hs =>
    have hhead := hends _ .expression ⟨hm, ht _ List.mem_cons_self⟩
    obtain ⟨hm', -⟩ := hhead.value hv hs
    exact ⟨hm', fun c hc => ht c (List.mem_cons_of_mem _ hc)⟩
  | @call id t c es f args k m m' m'' hf hs hargs =>
    obtain ⟨hm', hval⟩ := (hfirst rfl rfl).value hf hs
    have hes := hends _ (.arguments hf hs) ⟨hm', fun e he => I.part ht (List.mem_cons_of_mem _ he)⟩
    obtain ⟨hm'', hgives⟩ := Kept.of_ok hes hargs
    cases hgives with
    | values hvs => exact ⟨hm'', hval, hvs⟩
  | body _ hnote hscope hbind hss =>
    obtain ⟨hf, hargs⟩ := ht
    have hm₂ := ((keeps_note _ _ _).ok hm hnote).1
    obtain ⟨hm₃, hinner⟩ := (keeps_newScope hf).ok hm₂ hscope
    have hm₄ := ((hinner.keeps_bindAll _ hargs).ok hm₃ hbind).1
    exact ⟨hm₄, .value I.null, hinner.statements _ hss⟩

/-! ## Tasks, when their parts end with the property -/

section
variable {id : ScopeId} {k : Nat} {m : Machine}

theorem node_ends {n : Node} (hn : I.node id n) (hm : I.store m.store)
    (h : ∀ q, Begins verbosity ⟨.node id n, k, m⟩ q → I.Ends verbosity q) :
    I.Kept (Gives I.value) (Eval.node verbosity (callUpTo verbosity k) id n m) := by
  have hfirst {c : Node} (hc : n.first? = some c) :
      I.Kept (Gives I.value) (Eval.node verbosity (callUpTo verbosity k) id c m) :=
    h ⟨.node id c, k, m⟩ (.first hc)
  have hsecond {c d : Node} {v : Value} {m' : Machine} (hc : n.first? = some c)
      (hd : n.second? = some d)
      (hv : Eval.node verbosity (callUpTo verbosity k) id c m = .ok v m')
      (hs : v.isSignal = false) :
      I.Kept (Gives I.value) (Eval.node verbosity (callUpTo verbosity k) id d m') :=
    h ⟨.node id d, k, m'⟩ (.second hc hd hv hs)
  have hblock {ss : List Node} (hss : n.statements? = some ss) :
      I.Kept (Gives I.value) (Eval.statements verbosity (callUpTo verbosity k) id .null ss m) :=
    h ⟨.statements id .null ss, k, m⟩ (.block hss)
  cases n with
  | program ss =>
    rw [Eval.node]
    exact (hblock rfl).unwrapped.imp fun _ hv => hv.gives
  | letStatement t name value =>
    rw [Eval.node]
    apply (hfirst rfl).unless
    intro v m' _ _ hm' hv
    apply (keeps_bind (I.named hn) hv m' hm').andThen
    intro _ m₂ _ hm₂ _
    apply (keeps_note _ _ _ m₂ hm₂).andThen
    intro _ _ _ hm₃ _
    exact .ok hm₃ (.value I.null)
  | returnStatement t value =>
    cases value with
    | none =>
      rw [Eval.node]
      exact .ok hm (.returned I.null)
    | some value =>
      rw [Eval.node]
      apply (hfirst rfl).unless
      intro v m' _ _ hm' hv
      exact .ok hm' (.returned hv)
  | expressionStatement t e =>
    rw [Eval.node]
    exact hfirst rfl
  | block t ss =>
    rw [Eval.node]
    exact hblock rfl
  | ident name =>
    rw [Eval.node]
    exact identifier_keeps id name.name m hm
  | integer t i =>
    rw [Eval.node]
    exact .ok hm (.value (I.integer hn))
  | string t s =>
    rw [Eval.node]
    exact .ok hm (.value (I.string hn))
  | boolean t b =>
    rw [Eval.node]
    exact .ok hm (.value (I.boolean b))
  | array t es =>
    rw [Eval.node]
    have hes : I.Kept (GivesList I.value)
        (Eval.expressions verbosity (callUpTo verbosity k) id es m) :=
      h ⟨.expressions id es, k, m⟩ .elements
    apply hes.andThen
    intro r m' _ hm' hr
    cases hr with
    | values hvs => exact .ok hm' (.value (I.array hn hvs))
    | signal hs => exact .ok hm' hs
  | prefixOp t op e =>
    rw [Eval.node]
    apply (hfirst rfl).unless
    intro v m' _ _ hm' hv
    exact .ok hm' (I.prefixOp op hv).gives
  | infixOp t op left right =>
    rw [Eval.node]
    apply (hfirst rfl).unless
    intro l m' hl hs _ hlv
    apply (hsecond rfl rfl hl hs).unless
    intro r m'' _ _ hm'' hrv
    exact .ok hm'' (I.infixOp op hlv hrv).gives
  | conditional t c a b =>
    have hbranch {d : Node} {v : Value} {m' m'' : Machine} {text : Unit → String}
        (hv : Eval.node verbosity (callUpTo verbosity k) id c m = .ok v m')
        (hs : v.isSignal = false) (hnote : note verbosity 3 text m' = .ok () m'')
        (hd : (if v.isTruthy then some a else b) = some d) :
        I.Kept (Gives I.value) (Eval.node verbosity (callUpTo verbosity k) id d m'') :=
      h ⟨.node id d, k, m''⟩ (.branch hv hs hnote hd)
    cases b with
    | none =>
      rw [Eval.node]
      apply (hfirst rfl).unless
      intro v m' hv hs hm' _
      apply (keeps_note _ _ _ m' hm').andThen
      intro _ m'' hnote hm'' _
      split
      · next ht => exact hbranch hv hs hnote (if_pos ht)
      · exact .ok hm'' (.value I.null)
    | some b =>
      rw [Eval.node]
      apply (hfirst rfl).unless
      intro v m' hv hs hm' _
      apply (keeps_note _ _ _ m' hm').andThen
      intro _ m'' hnote hm'' _
      split
      · next ht => exact hbranch hv hs hnote (if_pos ht)
      · next ht => exact hbranch hv hs hnote (if_neg ht)
  | function t ps body =>
    rw [Eval.node]
    exact (keeps_newFunction hn m hm).imp fun _ hv => .value hv
  | call t callee arguments =>
    rw [Eval.node]
    apply (hfirst rfl).unless
    intro f m' hf hs _ _
    have hargs : I.Kept (GivesList I.value)
        (Eval.expressions verbosity (callUpTo verbosity k) id arguments m') :=
      h ⟨.expressions id arguments, k, m'⟩ (.arguments hf hs)
    apply hargs.andThen
    intro r m'' hr hm'' hgives
    cases hgives with
    | @values vs _ =>
      have hcall : I.Kept (Settles I.value) (callUpTo verbosity k f vs m'') :=
        h ⟨.call f vs, k, m''⟩ (.call hf hs hr)
      exact hcall.imp fun _ hv => hv.gives
    | signal hs => exact .ok hm'' hs
  | index t collection position =>
    rw [Eval.node]
    apply (hfirst rfl).unless
    intro c m' hc hs _ hcv
    apply (hsecond rfl rfl hc hs).unless
    intro i m'' _ _ hm'' _
    exact index_keeps verbosity hcv i m'' hm''
  | datum tree =>
    rw [Eval.node]
    exact .error hm (I.unexpected hn)

theorem statements_ends {last : Value} {ss : List Node} (hlast : Gives I.value last)
    (hm : I.store m.store)
    (h : ∀ q, Begins verbosity ⟨.statements id last ss, k, m⟩ q → I.Ends verbosity q) :
    I.Kept (Gives I.value)
      (Eval.statements verbosity (callUpTo verbosity k) id last ss m) := by
  cases ss with
  | nil =>
    rw [Eval.statements]
    exact .ok hm hlast
  | cons s ss =>
    rw [Eval.statements]
    have hs : I.Kept (Gives I.value) (Eval.node verbosity (callUpTo verbosity k) id s m) :=
      h ⟨.node id s, k, m⟩ .statement
    apply hs.unless
    intro v m' hv hs _ _
    exact h ⟨.statements id v ss, k, m'⟩ (.statements hv hs)

theorem expressions_ends {es : List Node} (hm : I.store m.store)
    (h : ∀ q, Begins verbosity ⟨.expressions id es, k, m⟩ q → I.Ends verbosity q) :
    I.Kept (GivesList I.value)
      (Eval.expressions verbosity (callUpTo verbosity k) id es m) := by
  cases es with
  | nil =>
    rw [Eval.expressions]
    exact .ok hm (.values fun _ hv => absurd hv List.not_mem_nil)
  | cons e es =>
    rw [Eval.expressions]
    have he : I.Kept (Gives I.value) (Eval.node verbosity (callUpTo verbosity k) id e m) :=
      h ⟨.node id e, k, m⟩ .expression
    apply he.andThen
    intro v m' hv hm' hgives
    split
    · exact .ok hm' (.signal hgives)
    · next hs =>
      have hs' := Bool.eq_false_iff.mpr hs
      have hes : I.Kept (GivesList I.value)
          (Eval.expressions verbosity (callUpTo verbosity k) id es m') :=
        h ⟨.expressions id es, k, m'⟩ (.expressions hv hs')
      apply hes.andThen
      intro r m'' _ hm'' hr
      cases hr with
      | values hvs =>
        exact .ok hm'' (.values (List.forall_mem_cons.mpr ⟨hgives.of_not_isSignal hs', hvs⟩))
      | signal hs => exact .ok hm'' (.signal hs)

/-- The body of a function, which calls may or may not nest deep enough to begin. -/
theorem apply_ends {run : ScopeId → Node → EvalM Value} {f : Value} {args : List Value}
    (hf : I.value f) (hargs : ∀ a ∈ args, I.value a) (hm : I.store m.store)
    (hresult : ∀ b, f = .builtin b → Settles I.value (b.result args))
    (hrun : ∀ i ps code scope inner text m₂ m₃ m₄, f = .function i ps code scope →
      args.length = ps.length → note verbosity 2 text m = .ok () m₂ →
      newScope scope m₂ = .ok inner m₃ → bindAll inner (ps.zip args) m₃ = .ok () m₄ →
      I.store m₄.store → I.Enters code inner → I.Kept (Gives I.value) (run inner code m₄)) :
    I.Kept (Settles I.value) (apply verbosity run f args m) := by
  cases f with
  | function i ps code scope =>
    rw [apply]
    split
    · exact .ok hm .error
    · next hlen =>
      apply (keeps_note _ _ _ m hm).andThen
      intro _ m₂ hnote hm₂ _
      apply (keeps_newScope hf m₂ hm₂).andThen
      intro inner m₃ hscope hm₃ hinner
      apply (hinner.keeps_bindAll ps hargs m₃ hm₃).andThen
      intro _ m₄ hbind hm₄ _
      exact (hrun i ps code scope inner _ m₂ m₃ m₄ rfl (not_not.mp hlen) hnote hscope hbind hm₄
        hinner).unwrapped
  | builtin b =>
    rw [apply]
    split
    · apply (keeps_note _ _ _ m hm).andThen
      intro _ m₂ _ hm₂ _
      apply (keeps_print _ m₂ hm₂).andThen
      intro _ _ _ hm₃ _
      exact .ok hm₃ (hresult b rfl)
    · exact .ok hm .error
  | _ => exact .ok hm .error

theorem call_ends {f : Value} {args : List Value} (hf : I.value f)
    (hargs : ∀ a ∈ args, I.value a) (hm : I.store m.store)
    (hresult : ∀ b, f = .builtin b → Settles I.value (b.result args))
    (h : ∀ q, Begins verbosity ⟨.call f args, k, m⟩ q → I.Ends verbosity q) :
    I.Kept (Settles I.value) (callUpTo verbosity k f args m) := by
  cases k with
  | zero =>
    exact apply_ends hf hargs hm hresult fun _ _ _ _ _ _ _ _ _ _ _ _ _ _ hm₄ _ =>
      .error hm₄ I.tooDeep
  | succ k =>
    apply apply_ends hf hargs hm hresult
    intro i ps code scope inner text m₂ m₃ m₄ hfun hlen hnote hscope hbind hm₄ hinner
    subst hfun
    unfold body
    cases hc : code.statements? with
    | some ss => exact h ⟨.statements inner .null ss, k, m₄⟩ (.body hlen hnote hscope hbind hc)
    | none => exact .error hm₄ (hinner.fault hc)

theorem Kept.settleDepth {p : EvalM Value} {m : Machine} (h : I.Kept (Settles I.value) (p m)) :
    I.Kept (Settles I.value) (settleDepth p m) := by
  unfold Eval.settleDepth
  generalize p m = x at h
  cases h with
  | ok hm' hv => exact .ok hm' hv
  | @error f m' hm' hf =>
    cases f with
    | tooDeep => exact .ok hm' .error
    | _ => exact .error hm' hf

theorem run_ends {program : List Node} (hm : I.store m.store)
    (h : ∀ q, Begins verbosity ⟨.run id program, k, m⟩ q → I.Ends verbosity q) :
    I.Kept (Settles I.value) (runUpTo k verbosity id program m) := by
  apply (keeps_note _ _ _ m hm).andThen
  intro _ m₂ hnote _ _
  have hrun : I.Kept (Gives I.value)
      (Eval.statements verbosity (callUpTo verbosity k) id .null program m₂) :=
    h ⟨.statements id .null program, k, m₂⟩ (.program hnote)
  apply hrun.unwrapped.settleDepth.andThen
  intro v m₃ _ hm₃ hv
  apply (keeps_note _ _ _ m₃ hm₃).andThen
  intro _ _ _ hm₄ _
  exact .ok hm₄ hv

end

/-! ## Whole evaluations -/

theorem At.ends_of_begun {p : Point} (hp : I.At p) (hsuits : I.Suits verbosity p)
    (h : ∀ q, Begins verbosity p q → I.Ends verbosity q) : I.Ends verbosity p := by
  obtain ⟨task, k, m⟩ := p
  obtain ⟨hm, ht⟩ := hp
  cases task with
  | run id program => exact run_ends hm h
  | node id n => exact node_ends ht hm h
  | statements id last ss => exact statements_ends ht.1 hm h
  | expressions id es => exact expressions_ends hm h
  | call f args =>
    apply call_ends ht.1 ht.2 hm _ h
    rintro b rfl
    exact hsuits b args k m .refl ht.2

/-- What is evaluated from a point with the property ends with it. -/
theorem At.ends {p : Point} (hp : I.At p) (hsuits : I.Suits verbosity p) :
    I.Ends verbosity p := by
  induction p using (begins_wellFounded verbosity).induction with
  | _ p ih =>
    have hends (q : Point) (hq : Begins verbosity p q) (hat : I.At q) : I.Ends verbosity q :=
      ih q hq hat (hsuits.begins hq)
    exact hp.ends_of_begun hsuits fun q hq => hends q hq (hp.begins hends hq)

theorem At.reached {p q : Point} (hp : I.At p) (hsuits : I.Suits verbosity p)
    (h : Reached verbosity p q) : I.At q := by
  induction h using Relation.ReflTransGen.head_induction_on with
  | refl => exact hp
  | head hstep _ ih =>
    have hbegun := hp.begins (fun r hr hat => hat.ends (hsuits.begins hr)) hstep
    exact ih hbegun (hsuits.begins hstep)

end StepInvariant

namespace Invariant

variable {I : Invariant} {verbosity : Nat}

theorem suits (p : Point) : I.Suits verbosity p := fun b _ _ _ _ hargs => I.result b hargs

theorem callUpTo_keeps (k : Nat) {f : Value} {args : List Value} (hf : I.value f)
    (hargs : ∀ a ∈ args, I.value a) : I.Keeps (Settles I.value) (callUpTo verbosity k f args) :=
  fun m hm =>
    have hp : I.At ⟨.call f args, k, m⟩ := ⟨hm, hf, hargs⟩
    hp.ends (I.suits _)

theorem node_keeps (k : Nat) {id : ScopeId} {n : Node} (hn : I.node id n) :
    I.Keeps (Gives I.value) (Eval.node verbosity (callUpTo verbosity k) id n) :=
  fun m hm =>
    have hp : I.At ⟨.node id n, k, m⟩ := ⟨hm, hn⟩
    hp.ends (I.suits _)

theorem runUpTo_keeps (k : Nat) {id : ScopeId} {program : List Node}
    (h : ∀ n ∈ program, I.node id n) :
    I.Keeps (Settles I.value) (runUpTo k verbosity id program) :=
  fun m hm =>
    have hp : I.At ⟨.run id program, k, m⟩ := ⟨hm, h⟩
    hp.ends (I.suits _)

end Invariant

end Eval

end Simian
