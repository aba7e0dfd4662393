import Mathlib.Data.List.Basic
import Mathlib.Tactic.SplitIfs

/-!
# Readers

A text is cut into tokens by a machine that goes over its characters (`scan`), and a reader takes a
value from the front of a list of tokens.  What a reader makes of some tokens does not depend on what
follows them (`On`), and what it returns has a property (`Ensures`).  Both hold of a composed reader
if they hold of its parts.
-/

namespace Reader

/-! ## Tokens -/

inductive Token where
  | word (w : List Char)
  | literal (w : List Char)
  | symbol (c : Char)
  | eof
deriving DecidableEq

/-- Where the machine is, with what it has of the token. -/
inductive Mode where
  | between
  | word (w : List Char)
  | literal (w : List Char)

section Scan

variable (isWordChar : Char → Bool)

/-- A character that no token before it goes on with. -/
def start (c : Char) : Mode × List Token :=
  if isWordChar c then (.word [c], [])
  else if c = '"' then (.literal [], [])
  else if c.isWhitespace then (.between, [])
  else (.between, [.symbol c])

/-- A literal neither goes over a line nor has escapes. -/
def feed : Mode → Char → Option (Mode × List Token)
  | .between, c => some (start isWordChar c)
  | .word w, c =>
    if isWordChar c then some (.word (w ++ [c]), [])
    else some ((start isWordChar c).1, .word w :: (start isWordChar c).2)
  | .literal w, c =>
    if c = '"' then some (.between, [.literal w])
    else if c = '\\' ∨ c = '\n' then none
    else some (.literal (w ++ [c]), [])

def finish : Mode → Option (List Token)
  | .between => some [.eof]
  | .word w => some [.word w, .eof]
  | .literal _ => none

def scan : Mode → List Char → Option (Mode × List Token)
  | mode, [] => some (mode, [])
  | mode, c :: cs =>
    (feed isWordChar mode c).bind fun r => (scan r.1 cs).map fun r' => (r'.1, r.2 ++ r'.2)

/-- The tokens of a text. -/
def tokens (cs : List Char) : Option (List Token) :=
  (scan isWordChar .between cs).bind fun r => (finish r.1).map (r.2 ++ ·)

/-- The machine goes over `cs` and gives `ts`. -/
def Scans (mode : Mode) (cs : List Char) (mode' : Mode) (ts : List Token) : Prop :=
  scan isWordChar mode cs = some (mode', ts)

variable {isWordChar} {mode mode' mode'' : Mode} {cs ds w u : List Char} {ts us : List Token}

theorem Scans.nil : Scans isWordChar mode [] mode [] := rfl

theorem Scans.cons {c : Char} (hfeed : feed isWordChar mode c = some (mode', ts))
    (h : Scans isWordChar mode' cs mode'' us) :
    Scans isWordChar mode (c :: cs) mode'' (ts ++ us) := by
  unfold Scans at h ⊢
  rw [scan, hfeed, Option.bind_some, h]
  rfl

theorem Scans.append (h : Scans isWordChar mode cs mode' ts)
    (h' : Scans isWordChar mode' ds mode'' us) :
    Scans isWordChar mode (cs ++ ds) mode'' (ts ++ us) := by
  induction cs generalizing mode ts with
  | nil =>
    obtain ⟨rfl, rfl⟩ := Prod.mk.inj (Option.some.inj h)
    exact h'
  | cons c cs ih =>
    obtain ⟨r, hfeed, hr⟩ := Option.bind_eq_some_iff.1 h
    obtain ⟨r', hscan, heq⟩ := Option.map_eq_some_iff.1 hr
    obtain ⟨rfl, rfl⟩ := Prod.mk.inj heq
    rw [List.append_assoc]
    exact .cons hfeed (ih hscan)

theorem Scans.flatMap {α : Type} {l : List α} {text : α → List Char} {toks : α → List Token}
    (h : ∀ x ∈ l, Scans isWordChar mode (text x) mode (toks x)) :
    Scans isWordChar mode (l.flatMap text) mode (l.flatMap toks) := by
  induction l with
  | nil => exact .nil
  | cons x l ih =>
    rw [List.flatMap_cons, List.flatMap_cons]
    exact (h x List.mem_cons_self).append (ih fun y hy => h y (List.mem_cons_of_mem _ hy))

theorem scans_word_append (hw : ∀ c ∈ w, isWordChar c = true) :
    Scans isWordChar (.word u) w (.word (u ++ w)) [] := by
  induction w generalizing u with
  | nil =>
    rw [List.append_nil]
    exact .nil
  | cons c w ih =>
    have hfeed : feed isWordChar (.word u) c = some (.word (u ++ [c]), []) :=
      if_pos (hw c List.mem_cons_self)
    rw [← List.singleton_append, ← List.append_assoc]
    exact .cons hfeed (ih fun d hd => hw d (List.mem_cons_of_mem _ hd))

theorem scans_word (hne : w ≠ []) (hw : ∀ c ∈ w, isWordChar c = true) :
    Scans isWordChar .between w (.word w) [] := by
  cases w with
  | nil => exact absurd rfl hne
  | cons c w =>
    have hfeed : feed isWordChar .between c = some (.word [c], []) :=
      congrArg some (if_pos (hw c List.mem_cons_self))
    exact .cons hfeed (scans_word_append fun d hd => hw d (List.mem_cons_of_mem _ hd))

theorem scans_literal (hw : ∀ c ∈ w, c ≠ '"' ∧ c ≠ '\\' ∧ c ≠ '\n') :
    Scans isWordChar (.literal u) w (.literal (u ++ w)) [] := by
  induction w generalizing u with
  | nil =>
    rw [List.append_nil]
    exact .nil
  | cons c w ih =>
    obtain ⟨hquote, hescape, hline⟩ := hw c List.mem_cons_self
    have hfeed : feed isWordChar (.literal u) c = some (.literal (u ++ [c]), []) := by
      rw [feed, if_neg hquote, if_neg (not_or.2 ⟨hescape, hline⟩)]
    rw [← List.singleton_append, ← List.append_assoc]
    exact .cons hfeed (ih fun d hd => hw d (List.mem_cons_of_mem _ hd))

theorem tokens_eq (h : Scans isWordChar .between cs .between ts) :
    tokens isWordChar cs = some (ts ++ [.eof]) := by
  unfold tokens
  rw [h]
  rfl

end Scan

end Reader

/-! ## Readers -/

/-- What is read, and the tokens behind it; `none` if a token is not as it should be. -/
abbrev Reader (τ α : Type) : Type := StateT (List τ) Option α

namespace Reader

variable {τ α β : Type}

/-- One token. -/
def token (f : τ → Option α) : Reader τ α
  | [] => none
  | t :: ts => (f t).map fun x => (x, ts)

def expect [DecidableEq τ] (t : τ) : Reader τ Unit :=
  token fun u => if u = t then some () else none

/-- `q` where `p` does not read. -/
def or (p q : Reader τ α) : Reader τ α := fun ts => (p.run ts).or (q.run ts)

/-- At most `n` steps. -/
def manyUntilFrom [DecidableEq τ] (stop : τ) (p : Reader τ α) : Nat → Reader τ (List α)
  | 0 => fun _ => none
  | n + 1 => or (do expect stop; pure []) do
      let x ← p
      let xs ← manyUntilFrom stop p n
      pure (x :: xs)

/-- As many as there are before the first `stop`; each must take a token. -/
def manyUntil [DecidableEq τ] (stop : τ) (p : Reader τ α) : Reader τ (List α) := fun ts =>
  (manyUntilFrom stop p ts.length).run ts

/-- With nothing left behind it. -/
def all (p : Reader τ α) (ts : List τ) : Option α :=
  (p.run ts).bind fun r => if r.2.isEmpty then some r.1 else none

/-! ## What comes of given tokens -/

/-- On `ts` the reader comes to `r`, whatever follows. -/
def On (p : Reader τ α) (ts : List τ) (r : Option α) : Prop :=
  ∀ rest, p.run (ts ++ rest) = r.map fun x => (x, rest)

section On

variable {p q : Reader τ α} {f : α → Reader τ β} {ts us : List τ} {t : τ} {x : α} {r s : Option α}
  {r' : Option β}

theorem On.pure (x : α) : On (Pure.pure x : Reader τ α) [] (some x) := fun _ => rfl

theorem On.token_some {f : τ → Option α} (h : f t = some x) : On (token f) [t] (some x) :=
  fun _ => congrArg (Option.map _) h

theorem On.token_none {f : τ → Option α} (h : f t = none) : On (token f) [t] none :=
  fun _ => congrArg (Option.map _) h

theorem On.expect [DecidableEq τ] : On (expect t) [t] (some ()) := .token_some (if_pos rfl)

theorem On.expect_ne [DecidableEq τ] {u : τ} (h : u ≠ t) : On (Reader.expect t) [u] none :=
  .token_none (if_neg h)

theorem On.bind {s : α → Option β} (hp : On p ts r) (hf : ∀ x, r = some x → On (f x) us (s x)) :
    On (p >>= f) (ts ++ us) (r.bind s) := by
  intro rest
  rw [StateT.run_bind, List.append_assoc, hp]
  cases r with
  | none => rfl
  | some x => exact hf x rfl rest

theorem On.seq (hp : On p ts (some x)) (hf : On (f x) us r') : On (p >>= f) (ts ++ us) r' :=
  hp.bind (s := fun _ => r') fun _ h => Option.some.inj h ▸ hf

theorem On.cons (hp : On p [t] (some x)) (hf : On (f x) us r') : On (p >>= f) (t :: us) r' :=
  hp.seq hf

theorem On.fail (hp : On p ts none) : On (p >>= f) (ts ++ us) none :=
  hp.bind (s := fun _ => none) fun _ h => nomatch h

theorem On.fail_cons (hp : On p [t] none) : On (p >>= f) (t :: us) none := hp.fail

theorem On.or_left (hp : On p ts (some x)) : On (Reader.or p q) ts (some x) := fun rest => by
  show (p.run (ts ++ rest)).or (q.run (ts ++ rest)) = _
  rw [hp]
  rfl

theorem On.or (hp : On p ts r) (hq : On q ts s) : On (Reader.or p q) ts (r.or s) := fun rest => by
  show (p.run (ts ++ rest)).or (q.run (ts ++ rest)) = _
  rw [hp, hq]
  cases r <;> rfl

theorem On.map (g : α → β) (hp : On p ts r) : On (do let x ← p; Pure.pure (g x)) ts (r.map g) := by
  have h := hp.bind (s := fun x => some (g x)) fun x _ => .pure (g x)
  rw [List.append_nil] at h
  rwa [Option.map_eq_bind]

/-- A list of what `p` reads, if each comes with tokens of its own.  One that `p` does not read spoils
the list. -/
theorem On.manyUntilFrom [DecidableEq τ] {stop : τ} {l : List β} {w : β → List τ} {r : β → Option α}
    (hp : ∀ y ∈ l, On p (w y) (r y)) (hstop : ∀ y ∈ l, ∃ t us, w y = t :: us ∧ t ≠ stop) {n : Nat}
    (hn : l.length < n) : On (manyUntilFrom stop p n) (l.flatMap w ++ [stop]) (l.mapM r) := by
  induction l generalizing n with
  | nil =>
    cases n with
    | zero => exact absurd hn (Nat.lt_irrefl 0)
    | succ n => exact .or_left (.cons .expect (.pure []))
  | cons y l ih =>
    cases n with
    | zero => exact absurd hn (Nat.not_lt_zero _)
    | succ n =>
      have hrest := ih (fun z hz => hp z (List.mem_cons_of_mem _ hz))
        (fun z hz => hstop z (List.mem_cons_of_mem _ hz)) (Nat.lt_of_succ_lt_succ hn)
      obtain ⟨t, us, hw, ht⟩ := hstop y List.mem_cons_self
      rw [List.flatMap_cons, List.append_assoc, List.mapM_cons]
      refine On.or (r := none) ?_ ((hp y List.mem_cons_self).bind fun x _ => ?_)
      · rw [hw]
        exact .fail_cons (.expect_ne ht)
      · rw [← List.append_nil (l.flatMap w ++ [stop])]
        exact hrest.bind fun xs _ => .pure (x :: xs)

theorem length_le_length_flatMap {l : List β} {w : β → List τ} (h : ∀ y ∈ l, w y ≠ []) :
    l.length ≤ (l.flatMap w).length := by
  induction l with
  | nil => exact Nat.zero_le _
  | cons y l ih =>
    have hy := List.length_pos_iff.2 (h y List.mem_cons_self)
    have hrest := ih fun z hz => h z (List.mem_cons_of_mem _ hz)
    rw [List.flatMap_cons, List.length_append, List.length_cons]
    omega

theorem On.manyUntil [DecidableEq τ] {stop : τ} {l : List β} {w : β → List τ} {r : β → Option α}
    (hp : ∀ y ∈ l, On p (w y) (r y)) (hstop : ∀ y ∈ l, ∃ t us, w y = t :: us ∧ t ≠ stop) :
    On (manyUntil stop p) (l.flatMap w ++ [stop]) (l.mapM r) := fun rest => by
  refine On.manyUntilFrom hp hstop ?_ rest
  have hle := length_le_length_flatMap (l := l) (w := w) fun y hy => by
    obtain ⟨t, us, hw, -⟩ := hstop y hy
    rw [hw]
    exact List.cons_ne_nil _ _
  rw [List.length_append, List.length_append, List.length_singleton]
  omega

theorem mapM_guard (p : α → Bool) (l : List α) :
    l.mapM (Option.guard p) = Option.guard (fun l => l.all p) l := by
  induction l with
  | nil => rfl
  | cons x l ih =>
    rw [List.mapM_cons, ih]
    by_cases hx : p x = true <;> by_cases hl : l.all p = true <;> simp [Option.guard, hx, hl]

theorem map_guard {p : α → Bool} {q : β → Bool} {g : α → β} {x : α} (h : q (g x) = p x) :
    (Option.guard p x).map g = Option.guard q (g x) := by
  unfold Option.guard
  rw [h]
  split_ifs <;> rfl

theorem On.all (h : On p ts r) : Reader.all p ts = r := by
  have h := h []
  rw [List.append_nil] at h
  rw [Reader.all, h]
  cases r <;> rfl

end On

/-! ## What is read -/

/-- All that the reader returns has the property. -/
def Ensures (p : Reader τ α) (P : α → Prop) : Prop :=
  ∀ ts x rest, p.run ts = some (x, rest) → P x

section Ensures

variable {p q : Reader τ α} {f : α → Reader τ β} {P P' : α → Prop} {Q : β → Prop}

theorem Ensures.mono (h : Ensures p P) (himp : ∀ x, P x → P' x) : Ensures p P' :=
  fun ts x rest hx => himp x (h ts x rest hx)

theorem Ensures.trivial : Ensures p fun _ => True := fun _ _ _ _ => True.intro

theorem Ensures.pure {x : α} (h : P x) : Ensures (Pure.pure x : Reader τ α) P := by
  intro ts y rest hy
  obtain ⟨rfl, -⟩ := Prod.mk.inj (Option.some.inj hy)
  exact h

theorem Ensures.token {f : τ → Option α} (h : ∀ t x, f t = some x → P x) : Ensures (token f) P := by
  intro ts x rest hx
  cases ts with
  | nil => cases hx
  | cons t ts =>
    obtain ⟨y, hy, heq⟩ := Option.map_eq_some_iff.1 hx
    obtain ⟨rfl, -⟩ := Prod.mk.inj heq
    exact h t y hy

theorem Ensures.bind (hp : Ensures p P) (hf : ∀ x, P x → Ensures (f x) Q) : Ensures (p >>= f) Q := by
  intro ts y rest hy
  rw [StateT.run_bind] at hy
  obtain ⟨⟨x, us⟩, hx, hy⟩ := Option.bind_eq_some_iff.1 hy
  exact hf x (hp ts x us hx) us y rest hy

theorem Ensures.skip (hf : ∀ x, Ensures (f x) Q) : Ensures (p >>= f) Q :=
  Ensures.trivial.bind fun x _ => hf x

theorem Ensures.or (hp : Ensures p P) (hq : Ensures q P) : Ensures (Reader.or p q) P := by
  intro ts x rest hx
  rcases Option.or_eq_some_iff.1 hx with h | ⟨-, h⟩
  · exact hp ts x rest h
  · exact hq ts x rest h

theorem Ensures.manyUntil [DecidableEq τ] {stop : τ} (hp : Ensures p P) :
    Ensures (manyUntil stop p) fun xs => ∀ x ∈ xs, P x := by
  have hfrom : ∀ n, Ensures (manyUntilFrom stop p n) fun xs => ∀ x ∈ xs, P x := by
    intro n
    induction n with
    | zero => exact fun _ _ _ h => nomatch h
    | succ n ih =>
      exact .or (.skip fun _ => .pure fun _ h => nomatch h)
        (hp.bind fun x hx => ih.bind fun xs hxs => .pure (List.forall_mem_cons.2 ⟨hx, hxs⟩))
  exact fun ts xs rest h => hfrom ts.length ts xs rest h

theorem Ensures.all (h : Ensures p P) {ts : List τ} {x : α} (hx : Reader.all p ts = some x) : P x := by
  obtain ⟨⟨y, rest⟩, hrun, hy⟩ := Option.bind_eq_some_iff.1 hx
  obtain ⟨-, heq⟩ := Option.ite_none_right_eq_some.1 hy
  exact Option.some.inj heq ▸ h ts y rest hrun

end Ensures

end Reader
