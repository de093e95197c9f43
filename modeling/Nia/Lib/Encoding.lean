import Mathlib

/-! Trees over a signature, and their codes.

A signature names categories of nodes, the kinds of node of each category and
the fields of each kind. A tree is written as the header of its kind followed by
its fields in order: data by the code of its sort, optional parts behind a flag,
lists behind their length. Some data is kept in the tree and not written.

Two trees are compared place by place in the order they are written. A code may
write different data alike, and may write one node or datum so that it can be
taken for the beginning of another; a `Comparison` names both. When one code
stands in front of another, the trees are written alike, or the first place
where they are not is one of the latter (`Tree.alike_or_meets`). So an ambiguous
pair spoils only the trees that bring the two together before they differ in
anything else. -/
namespace Nia.Lib.Encoding

inductive Field (C S : Type) where
  | leaf (s : S)
  /-- Data that is not part of the code. -/
  | unwritten (s : S)
  | child (c : C)
  | option (c : C)
  | list (c : C)

structure Signature where
  Cat : Type
  Kind : Cat → Type
  /-- Sorts of data. -/
  Leaf : Type
  Value : Leaf → Type
  fields : {c : Cat} → Kind c → List (Field Cat Leaf)

mutual

inductive Tree (σ : Signature) : σ.Cat → Type
  | node {c : σ.Cat} (k : σ.Kind c) (args : Args σ (σ.fields k)) : Tree σ c

inductive Args (σ : Signature) : List (Field σ.Cat σ.Leaf) → Type
  | nil : Args σ []
  | leaf {s : σ.Leaf} {fs : List (Field σ.Cat σ.Leaf)} (v : σ.Value s) (rest : Args σ fs) :
      Args σ (.leaf s :: fs)
  | unwritten {s : σ.Leaf} {fs : List (Field σ.Cat σ.Leaf)} (v : σ.Value s) (rest : Args σ fs) :
      Args σ (.unwritten s :: fs)
  | child {c : σ.Cat} {fs : List (Field σ.Cat σ.Leaf)} (t : Tree σ c) (rest : Args σ fs) :
      Args σ (.child c :: fs)
  | absent {c : σ.Cat} {fs : List (Field σ.Cat σ.Leaf)} (rest : Args σ fs) : Args σ (.option c :: fs)
  | present {c : σ.Cat} {fs : List (Field σ.Cat σ.Leaf)} (t : Tree σ c) (rest : Args σ fs) :
      Args σ (.option c :: fs)
  | list {c : σ.Cat} {fs : List (Field σ.Cat σ.Leaf)} (n : UInt64) (ts : Many σ c n.toNat)
      (rest : Args σ fs) : Args σ (.list c :: fs)

/-- Lists of a given length. -/
inductive Many (σ : Signature) : σ.Cat → Nat → Type
  | nil {c : σ.Cat} : Many σ c 0
  | cons {c : σ.Cat} {n : Nat} (t : Tree σ c) (ts : Many σ c n) : Many σ c (n + 1)

end

variable {σ : Signature} {β : Type}

/-! ### Codes -/

structure Coding (σ : Signature) (β : Type) where
  header : {c : σ.Cat} → σ.Kind c → List β
  leaf : {s : σ.Leaf} → σ.Value s → List β
  flag : Bool → List β
  count : UInt64 → List β

mutual

def Tree.encode (code : Coding σ β) {c : σ.Cat} : Tree σ c → List β
  | .node k args => code.header k ++ args.encode code

def Args.encode (code : Coding σ β) {fs : List (Field σ.Cat σ.Leaf)} : Args σ fs → List β
  | .nil => []
  | .leaf v rest => code.leaf v ++ rest.encode code
  | .unwritten _ rest => rest.encode code
  | .child t rest => t.encode code ++ rest.encode code
  | .absent rest => code.flag false ++ rest.encode code
  | .present t rest => code.flag true ++ (t.encode code ++ rest.encode code)
  | .list n ts rest => code.count n ++ (ts.encode code ++ rest.encode code)

def Many.encode (code : Coding σ β) {c : σ.Cat} {n : Nat} : Many σ c n → List β
  | .nil => []
  | .cons t ts => t.encode code ++ ts.encode code

end

def Tree.kind {c : σ.Cat} : Tree σ c → σ.Kind c
  | .node k _ => k

/-! ### Comparing two trees -/

/-- What a code does not tell apart. -/
structure Comparison (σ : Signature) where
  /-- Data that is written alike. -/
  leaf : {s : σ.Leaf} → σ.Value s → σ.Value s → Prop
  /-- Nodes of different kinds that are written alike. -/
  node : {c : σ.Cat} → Tree σ c → Tree σ c → Prop
  /-- Data one of which can be taken for the beginning of the other. -/
  leafClash : {s : σ.Leaf} → σ.Value s → σ.Value s → Prop
  /-- Nodes one of which can be taken for the beginning of the other. -/
  nodeClash : {c : σ.Cat} → Tree σ c → Tree σ c → Prop

mutual

/-- The trees are written alike. -/
inductive Tree.Alike (cmp : Comparison σ) : {c : σ.Cat} → Tree σ c → Tree σ c → Prop
  | node {c : σ.Cat} (k : σ.Kind c) {a b : Args σ (σ.fields k)} : Args.Alike cmp a b →
      Tree.Alike cmp (.node k a) (.node k b)
  | other {c : σ.Cat} {t u : Tree σ c} : cmp.node t u → Tree.Alike cmp t u

inductive Args.Alike (cmp : Comparison σ) : {fs : List (Field σ.Cat σ.Leaf)} → Args σ fs → Args σ fs → Prop
  | nil : Args.Alike cmp .nil .nil
  | leaf {s : σ.Leaf} {v w : σ.Value s} : cmp.leaf v w → Args.Alike cmp a b →
      Args.Alike cmp (.leaf v a) (.leaf w b)
  | unwritten {s : σ.Leaf} (v w : σ.Value s) : Args.Alike cmp a b →
      Args.Alike cmp (.unwritten v a) (.unwritten w b)
  | child {c : σ.Cat} {t u : Tree σ c} : Tree.Alike cmp t u → Args.Alike cmp a b →
      Args.Alike cmp (.child t a) (.child u b)
  | absent {c : σ.Cat} : Args.Alike cmp a b → Args.Alike cmp (.absent (c := c) a) (.absent b)
  | present {c : σ.Cat} {t u : Tree σ c} : Tree.Alike cmp t u → Args.Alike cmp a b →
      Args.Alike cmp (.present t a) (.present u b)
  | list {c : σ.Cat} {n : UInt64} {ts us : Many σ c n.toNat} : Many.Alike cmp ts us → Args.Alike cmp a b →
      Args.Alike cmp (.list n ts a) (.list n us b)

inductive Many.Alike (cmp : Comparison σ) : {c : σ.Cat} → {n : Nat} → Many σ c n → Many σ c n → Prop
  | nil {c : σ.Cat} : Many.Alike cmp (.nil (c := c)) .nil
  | cons {c : σ.Cat} {n : Nat} {t u : Tree σ c} {ts us : Many σ c n} : Tree.Alike cmp t u →
      Many.Alike cmp ts us → Many.Alike cmp (.cons t ts) (.cons u us)

end

mutual

/-- The first place where the trees are not written alike is a clash. -/
inductive Tree.Meets (cmp : Comparison σ) : {c : σ.Cat} → Tree σ c → Tree σ c → Prop
  | here {c : σ.Cat} {t u : Tree σ c} : cmp.nodeClash t u → Tree.Meets cmp t u
  | node {c : σ.Cat} (k : σ.Kind c) {a b : Args σ (σ.fields k)} : Args.Meets cmp a b →
      Tree.Meets cmp (.node k a) (.node k b)

inductive Args.Meets (cmp : Comparison σ) : {fs : List (Field σ.Cat σ.Leaf)} → Args σ fs → Args σ fs → Prop
  | leaf {s : σ.Leaf} {v w : σ.Value s} : cmp.leafClash v w → Args.Meets cmp (.leaf v a) (.leaf w b)
  | leafRest {s : σ.Leaf} {v w : σ.Value s} : cmp.leaf v w → Args.Meets cmp a b →
      Args.Meets cmp (.leaf v a) (.leaf w b)
  | unwrittenRest {s : σ.Leaf} (v w : σ.Value s) : Args.Meets cmp a b →
      Args.Meets cmp (.unwritten v a) (.unwritten w b)
  | child {c : σ.Cat} {t u : Tree σ c} : Tree.Meets cmp t u → Args.Meets cmp (.child t a) (.child u b)
  | childRest {c : σ.Cat} {t u : Tree σ c} : Tree.Alike cmp t u → Args.Meets cmp a b →
      Args.Meets cmp (.child t a) (.child u b)
  | absentRest {c : σ.Cat} : Args.Meets cmp a b → Args.Meets cmp (.absent (c := c) a) (.absent b)
  | present {c : σ.Cat} {t u : Tree σ c} : Tree.Meets cmp t u → Args.Meets cmp (.present t a) (.present u b)
  | presentRest {c : σ.Cat} {t u : Tree σ c} : Tree.Alike cmp t u → Args.Meets cmp a b →
      Args.Meets cmp (.present t a) (.present u b)
  | list {c : σ.Cat} {n : UInt64} {ts us : Many σ c n.toNat} : Many.Meets cmp ts us →
      Args.Meets cmp (.list n ts a) (.list n us b)
  | listRest {c : σ.Cat} {n : UInt64} {ts us : Many σ c n.toNat} : Many.Alike cmp ts us → Args.Meets cmp a b →
      Args.Meets cmp (.list n ts a) (.list n us b)

inductive Many.Meets (cmp : Comparison σ) : {c : σ.Cat} → {n : Nat} → Many σ c n → Many σ c n → Prop
  | head {c : σ.Cat} {n : Nat} {t u : Tree σ c} {ts us : Many σ c n} : Tree.Meets cmp t u →
      Many.Meets cmp (.cons t ts) (.cons u us)
  | tail {c : σ.Cat} {n : Nat} {t u : Tree σ c} {ts us : Many σ c n} : Tree.Alike cmp t u →
      Many.Meets cmp ts us → Many.Meets cmp (.cons t ts) (.cons u us)

end

/-! ### Reading a tree off a stream -/

/-- The words of the two values are told apart by what stands in front of a stream. -/
def Cancels {α : Type} (word : α → List β) (a b : α) : Prop :=
  ∀ X Y, word a ++ X = word b ++ Y → a = b ∧ X = Y

/-- The comparison names all that the code does not tell apart in front of a stream. -/
structure Comparison.Names (cmp : Comparison σ) (code : Coding σ β) : Prop where
  flag : ∀ a b, Cancels code.flag a b
  count : ∀ m n, Cancels code.count m n
  leaf : ∀ {s} (v w : σ.Value s) {X Y}, code.leaf v ++ X = code.leaf w ++ Y →
    (cmp.leaf v w ∧ X = Y) ∨ cmp.leafClash v w
  node : ∀ {c} (t u : Tree σ c) {X Y}, t.kind ≠ u.kind → t.encode code ++ X = u.encode code ++ Y →
    (cmp.node t u ∧ X = Y) ∨ cmp.nodeClash t u

mutual

/-- At each place the trees are written alike, with the same rest behind it, or meet a clash. -/
theorem Tree.cancel {cmp : Comparison σ} {code : Coding σ β} (h : cmp.Names code) {c : σ.Cat} :
    ∀ {a b : Tree σ c} {X Y : List β}, a.encode code ++ X = b.encode code ++ Y →
    (Tree.Alike cmp a b ∧ X = Y) ∨ Tree.Meets cmp a b
  | .node k args, .node k' args', X, Y, heq => by
    by_cases hkind : k = k'
    · subst hkind
      simp only [Tree.encode, List.append_assoc] at heq
      rcases Args.cancel h (List.append_cancel_left heq) with ⟨halike, hrest⟩ | hmeets
      · exact .inl ⟨.node k halike, hrest⟩
      · exact .inr (.node k hmeets)
    · rcases h.node (.node k args) (.node k' args') hkind heq with ⟨hother, hrest⟩ | hclash
      · exact .inl ⟨.other hother, hrest⟩
      · exact .inr (.here hclash)

theorem Args.cancel {cmp : Comparison σ} {code : Coding σ β} (h : cmp.Names code)
    {fs : List (Field σ.Cat σ.Leaf)} : ∀ {a b : Args σ fs} {X Y : List β},
    a.encode code ++ X = b.encode code ++ Y → (Args.Alike cmp a b ∧ X = Y) ∨ Args.Meets cmp a b
  | .nil, .nil, X, Y, heq => .inl ⟨.nil, heq⟩
  | .leaf v rest, .leaf w rest', X, Y, heq => by
    simp only [Args.encode, List.append_assoc] at heq
    rcases h.leaf v w heq with ⟨hleaf, hrest⟩ | hclash
    · rcases Args.cancel h hrest with ⟨halike, hend⟩ | hmeets
      · exact .inl ⟨.leaf hleaf halike, hend⟩
      · exact .inr (.leafRest hleaf hmeets)
    · exact .inr (.leaf hclash)
  | .unwritten v rest, .unwritten w rest', X, Y, heq => by
    rcases Args.cancel h (a := rest) (b := rest') heq with ⟨halike, hend⟩ | hmeets
    · exact .inl ⟨.unwritten v w halike, hend⟩
    · exact .inr (.unwrittenRest v w hmeets)
  | .child t rest, .child u rest', X, Y, heq => by
    simp only [Args.encode, List.append_assoc] at heq
    rcases Tree.cancel h heq with ⟨htree, hrest⟩ | hmeets
    · rcases Args.cancel h hrest with ⟨halike, hend⟩ | hmeets
      · exact .inl ⟨.child htree halike, hend⟩
      · exact .inr (.childRest htree hmeets)
    · exact .inr (.child hmeets)
  | .absent rest, .absent rest', X, Y, heq => by
    simp only [Args.encode, List.append_assoc] at heq
    rcases Args.cancel h (a := rest) (b := rest') (h.flag _ _ _ _ heq).2 with ⟨halike, hend⟩ | hmeets
    · exact .inl ⟨.absent halike, hend⟩
    · exact .inr (.absentRest hmeets)
  | .absent rest, .present u rest', X, Y, heq => by
    simp only [Args.encode, List.append_assoc] at heq
    exact absurd (h.flag _ _ _ _ heq).1 (by decide)
  | .present t rest, .absent rest', X, Y, heq => by
    simp only [Args.encode, List.append_assoc] at heq
    exact absurd (h.flag _ _ _ _ heq).1 (by decide)
  | .present t rest, .present u rest', X, Y, heq => by
    simp only [Args.encode, List.append_assoc] at heq
    rcases Tree.cancel h (h.flag _ _ _ _ heq).2 with ⟨htree, hrest⟩ | hmeets
    · rcases Args.cancel h hrest with ⟨halike, hend⟩ | hmeets
      · exact .inl ⟨.present htree halike, hend⟩
      · exact .inr (.presentRest htree hmeets)
    · exact .inr (.present hmeets)
  | .list m ts rest, .list n us rest', X, Y, heq => by
    simp only [Args.encode, List.append_assoc] at heq
    obtain ⟨rfl, hmany⟩ := h.count _ _ _ _ heq
    rcases Many.cancel h hmany with ⟨htrees, hrest⟩ | hmeets
    · rcases Args.cancel h hrest with ⟨halike, hend⟩ | hmeets
      · exact .inl ⟨.list htrees halike, hend⟩
      · exact .inr (.listRest htrees hmeets)
    · exact .inr (.list hmeets)

theorem Many.cancel {cmp : Comparison σ} {code : Coding σ β} (h : cmp.Names code) {c : σ.Cat} {n : Nat} :
    ∀ {a b : Many σ c n} {X Y : List β}, a.encode code ++ X = b.encode code ++ Y →
    (Many.Alike cmp a b ∧ X = Y) ∨ Many.Meets cmp a b
  | .nil, .nil, X, Y, heq => .inl ⟨.nil, heq⟩
  | .cons t ts, .cons u us, X, Y, heq => by
    simp only [Many.encode, List.append_assoc] at heq
    rcases Tree.cancel h heq with ⟨htree, hrest⟩ | hmeets
    · rcases Many.cancel h hrest with ⟨halike, hend⟩ | hmeets
      · exact .inl ⟨.cons htree halike, hend⟩
      · exact .inr (.tail htree hmeets)
    · exact .inr (.head hmeets)

end

/-- What the comparison calls alike is written alike. -/
structure Comparison.Sound (cmp : Comparison σ) (code : Coding σ β) : Prop where
  leaf : ∀ {s} {v w : σ.Value s}, cmp.leaf v w → code.leaf v = code.leaf w
  node : ∀ {c} {t u : Tree σ c}, cmp.node t u → t.encode code = u.encode code

mutual

theorem Tree.Alike.encode {cmp : Comparison σ} {code : Coding σ β} (h : cmp.Sound code) {c : σ.Cat}
    {a b : Tree σ c} : Tree.Alike cmp a b → a.encode code = b.encode code
  | .node k hargs => by rw [Tree.encode, Tree.encode, hargs.encode h]
  | .other hother => h.node hother

theorem Args.Alike.encode {cmp : Comparison σ} {code : Coding σ β} (h : cmp.Sound code)
    {fs : List (Field σ.Cat σ.Leaf)} {a b : Args σ fs} : Args.Alike cmp a b → a.encode code = b.encode code
  | .nil => rfl
  | .leaf hleaf hrest => by rw [Args.encode, Args.encode, h.leaf hleaf, hrest.encode h]
  | .unwritten v w hrest => by rw [Args.encode, Args.encode, hrest.encode h]
  | .child ht hrest => by rw [Args.encode, Args.encode, ht.encode h, hrest.encode h]
  | .absent hrest => by rw [Args.encode, Args.encode, hrest.encode h]
  | .present ht hrest => by rw [Args.encode, Args.encode, ht.encode h, hrest.encode h]
  | .list hts hrest => by rw [Args.encode, Args.encode, hts.encode h, hrest.encode h]

theorem Many.Alike.encode {cmp : Comparison σ} {code : Coding σ β} (h : cmp.Sound code) {c : σ.Cat} {n : Nat}
    {a b : Many σ c n} : Many.Alike cmp a b → a.encode code = b.encode code
  | .nil => rfl
  | .cons ht hrest => by rw [Many.encode, Many.encode, ht.encode h, hrest.encode h]

end

/-- **One code in front of another: the trees are written alike, or meet a clash.** -/
theorem Tree.alike_or_meets {cmp : Comparison σ} {code : Coding σ β} (h : cmp.Names code) {c : σ.Cat}
    {a b : Tree σ c} (hbefore : a.encode code <+: b.encode code) : Tree.Alike cmp a b ∨ Tree.Meets cmp a b := by
  obtain ⟨X, heq⟩ := hbefore
  rw [← List.append_nil (b.encode code)] at heq
  exact (Tree.cancel h heq).imp_left And.left

end Nia.Lib.Encoding
