import Mathlib.Tactic.Common
import Lisplet.Proofs.Fresh

/-! Where closures come from and what they hold. Evaluation never makes a closure of its own: each
one goes back to a function form of a source, of which it was given some arguments. Its frame binds
the formals of these arguments and no other name, so neither the frames of its callers nor the names
that a body defines get into it. -/

namespace Lisplet

namespace Grammar

open Value

/-- The tokens of a form that makes a function of these formals and this body. -/
inductive Function : List Token.Kind → List Name → Value → Prop where
  | lambda {formals ks body} : Datum ks body →
      Function (parens (sym "lambda" :: (parens (formals.map sym) ++ ks))) formals body
  | defun {name formals ks body} : Datum ks body →
      Function (parens (sym "defun" :: (parens ((name :: formals).map sym) ++ ks))) formals body

/-- The form that makes a closure stands among the tokens. -/
def Makes (ks : List Token.Kind) : Value → Prop
  | .lambda formals body _ => ∃ form, form <:+: ks ∧ Function form formals body
  | _ => True

variable {ks ls : List Token.Kind} {v : Value} {vs : List Value}

theorem Makes.mono (hi : ks <:+: ls) (h : Makes ks v) : Makes ls v := by
  cases v with
  | lambda formals body captured =>
    obtain ⟨form, hf, hm⟩ := h
    exact ⟨form, hf.trans hi, hm⟩
  | _ => trivial

theorem everywhere_makes_mono (hi : ks <:+: ls) (h : v.Everywhere (Makes ks)) :
    v.Everywhere (Makes ls) := fun w hw => (h w hw).mono hi

theorem infix_parens (ks : List Token.Kind) : ks <:+: parens ks := ⟨[.lparen], [.rparen], by simp⟩

theorem infix_form (form : Name) (header ks : List Token.Kind) :
    ks <:+: parens (sym form :: (header ++ ks)) :=
  ⟨.lparen :: sym form :: header, [.rparen], by simp⟩

theorem everywhere_makes_function {form : List Token.Kind} {formals : List Name} {body : Value}
    (hf : Function form formals body) (hi : ks <:+: form) (h : body.Everywhere (Makes ks)) :
    (Value.lambda formals body []).Everywhere (Makes form) :=
  everywhere_lambda.mpr ⟨⟨form, List.infix_rfl, hf⟩, everywhere_makes_mono hi h, by simp⟩

mutual

/-- Every closure in the value of a datum is made by a form among the tokens of the datum. -/
theorem Datum.makes {ks : List Token.Kind} {v : Value} : Datum ks v → v.Everywhere (Makes ks)
  | .atom a => by cases a <;> exact (everywhere_leaf rfl).mpr trivial
  | @Datum.list ks _ _ h =>
    everywhere_expr.mpr ⟨trivial, fun c hc => everywhere_makes_mono (infix_parens ks) (h.makes c hc)⟩
  | @Datum.marked m ks _ h => by
    have hi : ks <:+: .mark m :: parens ks := (infix_parens ks).trans (List.suffix_cons _ _).isInfix
    exact everywhere_expr.mpr ⟨trivial, fun c hc => everywhere_makes_mono hi (h.makes c hc)⟩
  | @Datum.branch as bs cs _ _ _ ha hb hc => by
    have hall : as ++ bs ++ cs <:+: parens (sym "if" :: (as ++ bs ++ cs)) := infix_form "if" [] _
    have hi : as <:+: as ++ bs ++ cs := ⟨[], bs ++ cs, by simp⟩
    have hj : bs <:+: as ++ bs ++ cs := ⟨as, cs, rfl⟩
    have hk : cs <:+: as ++ bs ++ cs := ⟨as ++ bs, [], by simp⟩
    exact everywhere_cond.mpr ⟨trivial, everywhere_makes_mono (hi.trans hall) ha.makes,
      everywhere_makes_mono (hj.trans hall) hb.makes, everywhere_makes_mono (hk.trans hall) hc.makes⟩
  | @Datum.define form ts ks _ _ _ _ h =>
    everywhere_define.mpr ⟨trivial, everywhere_makes_mono (infix_form form ts ks) h.makes⟩
  | @Datum.function _ _ ks _ _ h =>
    everywhere_define.mpr ⟨trivial, everywhere_makes_function (.defun h) (infix_form _ _ ks) h.makes⟩
  | @Datum.lambda _ ks _ _ h => everywhere_makes_function (.lambda h) (infix_form _ _ ks) h.makes
  | @Datum.logic op ks _ _ h => by
    have hi : ks <:+: parens (sym op.name :: ks) := infix_form op.name [] ks
    exact everywhere_logic.mpr ⟨trivial, fun c hc => everywhere_makes_mono hi (h.makes c hc)⟩
  | @Datum.bindings ks _ _ h => by
    have hi : ks <:+: parens (sym "let" :: ks) := infix_form "let" [] ks
    exact everywhere_expr.mpr ⟨trivial, fun c hc => everywhere_makes_mono hi (h.makes c hc)⟩

theorem Data.makes {ks : List Token.Kind} {vs : List Value} :
    Data ks vs → ∀ v ∈ vs, v.Everywhere (Makes ks)
  | .nil => by simp
  | @Data.cons ks _ ls _ h hs => by
    have hi : ks <:+: ks ++ ls := (List.prefix_append ks ls).isInfix
    have hj : ls <:+: ks ++ ls := (List.suffix_append ks ls).isInfix
    exact List.forall_mem_cons.mpr ⟨everywhere_makes_mono hi h.makes,
      fun v hv => everywhere_makes_mono hj (hs.makes v hv)⟩

theorem Bindings.makes {ks : List Token.Kind} {ds : List Value} :
    Bindings ks ds → ∀ d ∈ ds, d.Everywhere (Makes ks)
  | .nil => by simp
  | @Bindings.cons name ks _ ls _ h hs => by
    have hi : ks <:+: parens (sym name :: ks) ++ ls :=
      (infix_form name [] ks).trans (List.prefix_append _ ls).isInfix
    have hj : ls <:+: parens (sym name :: ks) ++ ls := (List.suffix_append _ ls).isInfix
    exact List.forall_mem_cons.mpr
      ⟨everywhere_define.mpr ⟨trivial, everywhere_makes_mono hi h.makes⟩,
        fun d hd => everywhere_makes_mono hj (hs.makes d hd)⟩

end

end Grammar

/-- The text reads without problems, and one of its function forms has these formals and this body:
it stands among the tokens, and its closure in one of the values that are read. -/
def Program.Declares (text : String) (formals : List Name) (body : Value) : Prop :=
  (ofText text).problems = [] ∧
    (∃ form ∈ (ofText text).forms, .lambda formals body [] ∈ form.parts) ∧
    ∃ ks, ks <:+: Lexeme.kinds (Lexeme.cut text.toList) ∧ Grammar.Function ks formals body

/-- What is asked of each closure, if `F` are the functions that were declared: it waits for some
formals, and its frame binds exactly the formals that a function has before these. -/
def Value.Derives (F : List Name → Value → Prop) : Value → Prop
  | .lambda formals body captured =>
    formals ≠ [] ∧ ∃ given, F (given ++ formals) body ∧
      ∀ name, name ∈ Frame.names captured ↔ name ∈ given
  | _ => True

theorem Value.everywhere_derives_mono {F G : List Name → Value → Prop}
    (h : ∀ formals body, F formals body → G formals body) {v : Value} (hv : v.Everywhere (Derives F)) :
    v.Everywhere (Derives G) := by
  intro w hw
  have hd := hv w hw
  cases w with
  | lambda formals body captured =>
    obtain ⟨hne, given, hf, hnames⟩ := hd
    exact ⟨hne, given, h _ _ hf, hnames⟩
  | _ => trivial

theorem Program.derives_of_form {text : String} (hp : (ofText text).problems = []) {form : Value}
    (hm : form ∈ (ofText text).forms) : form.Everywhere (Value.Derives (Declares text)) := by
  have hwritten := written_forms text form hm
  have hmakes := (ofText_eq_iff.mp (eq_of_problems_eq_nil hp)).2.makes form hm
  intro w hw
  cases w with
  | lambda formals body captured =>
    -- A closure in a source was given nothing yet.
    obtain ⟨hne, rfl⟩ := hwritten _ hw
    exact ⟨hne, [], ⟨hp, ⟨form, hm, hw⟩, hmakes _ hw⟩, by simp [Frame.names]⟩
  | _ => trivial

theorem Frame.mem_names_bindAll {bindings : List (Name × Value)} {f : Frame} {name : Name} :
    name ∈ (f.bindAll bindings).names ↔ name ∈ f.names ∨ name ∈ bindings.map Prod.fst := by
  induction bindings generalizing f with
  | nil => simp [bindAll]
  | cons b rest ih =>
    have hs : f.bindAll (b :: rest) = (f.bind b.1 b.2).bindAll rest := rfl
    rw [hs, ih, names_bind, mem_insertName, List.map_cons, List.mem_cons]
    tauto

/-- The arguments add the formals that they are for. -/
theorem Closure.mem_names_scope {formals : List Name} {captured : Frame} {args : List Value}
    (h : args.length ≤ formals.length) {name : Name} :
    name ∈ (scope formals captured args).names ↔
      name ∈ captured.names ∨ name ∈ formals.take args.length := by
  have hz : (formals.zip args).map Prod.fst = formals.take args.length := by
    rw [List.zip_eq_zip_take_min, Nat.min_eq_right h, List.map_fst_zip]
    simp
  rw [scope, Frame.mem_names_bindAll, hz]

/-- Only partial application makes closures, and it moves formals from those that are waited for to
those that are bound. -/
theorem pervasive_derives (F : List Name → Value → Prop) :
    Pervasive (Value.Derives F) fun _ => True where
  list _ _ := trivial
  seq _ := trivial
  scalar hs := by cases hs <;> exact ⟨trivial, trivial⟩
  literal _ _ := trivial
  collapse _ := trivial
  captured _ _ _ := trivial
  waiting {formals body captured args} h _ hlt := by
    obtain ⟨-, given, hf, hnames⟩ := h
    refine ⟨?_, given ++ formals.take args.length, ?_, ?_⟩
    · rw [Ne, List.drop_eq_nil_iff]
      omega
    · rwa [List.append_assoc, List.take_append_drop]
    · intro name
      rw [Closure.mem_names_scope hlt.le, hnames, List.mem_append]
  names _ _ _ := trivial

namespace Session

/-- The functions that the prelude and some sources declare. -/
def Declared (texts : List String) (formals : List Name) (body : Value) : Prop :=
  ∃ text ∈ Prelude.definitions ++ texts, Program.Declares text formals body

theorem derives_of_declared {texts : List String} {text : String}
    (ht : text ∈ Prelude.definitions ++ texts) (hp : (Program.ofText text).problems = [])
    {form : Value} (hm : form ∈ (Program.ofText text).forms) :
    form.Everywhere (Value.Derives (Declared texts)) :=
  Value.everywhere_derives_mono (fun _ _ h => ⟨text, ht, h⟩) (Program.derives_of_form hp hm)

theorem problems_prelude {text : String} (h : text ∈ Prelude.definitions) :
    (Program.ofText text).problems = [] := by
  have read {texts : List String} {bs : List (Name × Value)}
      (hr : List.Forall₂ (fun text b => Program.ofText text = ⟨[.define b.1 b.2], []⟩) texts bs) :
      ∀ text ∈ texts, (Program.ofText text).problems = [] := by
    induction hr with
    | nil => simp
    | cons h _ ih => exact List.forall_mem_cons.mpr ⟨by rw [h], ih⟩
  exact read Prelude.definitions_read text h

theorem After.binds_derived {context : Context} {texts : List String} {env : Env}
    (h : After context texts env) :
    env.Binds fun _ v => v.Everywhere (Value.Derives (Declared texts)) := by
  have hleaf {v : Value} (hv : v.parts = [v]) (hd : v.Derives (Declared texts)) :
      True ∧ v.Everywhere (Value.Derives (Declared texts)) :=
    ⟨trivial, (Value.everywhere_leaf hv).mpr hd⟩
  have hb := h.binds (pervasive_derives (Declared texts)).discipline
    (fun _ _ => hleaf rfl trivial) (fun _ => hleaf rfl trivial)
    (fun text ht form hm =>
      derives_of_declared (List.mem_append_left _ ht) (problems_prelude ht) hm)
    (fun text ht hp form hm => derives_of_declared (List.mem_append_right _ ht) hp hm)
  exact fun f hf b hm => (hb f hf b hm).2

/-- After any sources, each closure in a global binding waits for some formals and binds exactly the
formals before these, as the prelude or one of the sources declares them with the same body. The
same holds of each closure in the result of a form of one more source, evaluated after any forms of
that source. -/
theorem closures_bind_given_formals {context : Context} {texts : List String} {env : Env}
    (h : After context texts env) :
    (env.Binds fun _ v => v.Everywhere (Value.Derives (Declared texts))) ∧
    ∀ text, (Program.ofText text).problems = [] →
      ∀ before ⊆ (Program.ofText text).forms, ∀ vs mid, Value.Runs before env vs mid →
      ∀ form ∈ (Program.ofText text).forms, ∀ v last, form.Yields mid v last →
        v.Everywhere (Value.Derives (Declared (texts ++ [text]))) := by
  refine ⟨h.binds_derived, ?_⟩
  intro text hp before hsub vs mid hr form hm v last hy
  let D := (pervasive_derives (Declared (texts ++ [text]))).discipline
  have hmem : text ∈ Prelude.definitions ++ (texts ++ [text]) := by simp
  have hnode : ∀ form ∈ (Program.ofText text).forms, D.Node form :=
    fun form hm => derives_of_declared hmem hp hm
  -- What was declared before stays declared.
  have hmore : ∀ formals body, Declared texts formals body →
      Declared (texts ++ [text]) formals body := by
    rintro formals body ⟨t, ht, hd⟩
    refine ⟨t, ?_, hd⟩
    rw [← List.append_assoc]
    exact List.mem_append_left _ ht
  have henv : env.Binds fun _ v => D.Bound v := fun f hf b hb =>
    ⟨trivial, Value.everywhere_derives_mono hmore (h.binds_derived f hf b hb)⟩
  have hmid := (D.results_of_runs (fun form hf => hnode form (hsub hf)) henv hr).2
  have hone : ∀ f ∈ [form], D.Node f := by simpa using hnode form hm
  have hv := (D.results_of_runs hone hmid (.next hy (.nil last))).1 v List.mem_cons_self
  exact hv.2

/-- A function of two formals that is given one argument. -/
theorem closures_bind_given_formals_waiting :
    ∃ env v last, After .default ["(defun (pick x y) x)"] env ∧
      (Value.expr .plain [.sym "pick", .int 1]).Yields env v last ∧
      v = .lambda ["y"] (.sym "x") [("x", .int 1)] ∧
      v.Everywhere (Value.Derives (Declared ["(defun (pick x y) x)", "(pick 1)"])) := by
  have hd : Program.ofText "(defun (pick x y) x)" =
      ⟨[.define "pick" (.lambda ["x", "y"] (.sym "x") [])], []⟩ := by
    apply Program.ofText_of_chars rfl <;> decide +kernel
  have hf : Program.ofText "(pick 1)" = ⟨[.expr .plain [.sym "pick", .int 1]], []⟩ := by
    apply Program.ofText_of_chars rfl <;> decide +kernel
  let fresh := (start .default).1
  let env := fresh.bind "pick" (.lambda ["x", "y"] (.sym "x") [])
  have hx : (Value.define "pick" (.lambda ["x", "y"] (.sym "x") [])).Yields fresh .nothing env :=
    Value.yields_define (Value.yields_literal rfl) rfl
  have he : Executes "(defun (pick x y) x)" fresh (.ok .nothing) env := by
    refine (executes_iff (by rw [hd])).mpr ⟨[.nothing], ?_, rfl⟩
    rw [hd]
    exact .next hx (.nil env)
  have hafter : After .default ["(defun (pick x y) x)"] env := After.start.execute he
  have hpick : env.lookup "pick" = .lambda ["x", "y"] (.sym "x") [] := by
    rw [Env.lookup_bind, if_pos rfl]
  have hy : (Value.expr .plain [.sym "pick", .int 1]).Yields env
      (.lambda ["y"] (.sym "x") [("x", .int 1)]) env := by
    refine (Value.yields_list (by simp)).mpr ⟨_, env,
      .next (Value.yields_name hpick) (.next (Value.yields_literal rfl) (.nil env)), ?_⟩
    refine (Value.combines_closure (by simp [Value.isNothing]) rfl).mpr ?_
    exact (Closure.applies_waiting (by decide)).mpr ⟨rfl, rfl⟩
  refine ⟨env, _, env, hafter, hy, rfl, ?_⟩
  exact (closures_bind_given_formals hafter).2 "(pick 1)" (by rw [hf]) [] (by simp) [] env
    (.nil env) _ (by rw [hf]; simp) _ _ hy

end Session

end Lisplet
