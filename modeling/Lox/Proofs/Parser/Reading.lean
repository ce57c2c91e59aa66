import Lox.Proofs.Grammar.Follow
import Lox.Proofs.Parser.Logic

/-! What parsers do on tokens that are known. A parse is followed token by token: after some tokens it goes on as
another parser on the rest. -/
namespace Lox.Parser

open Grammar

variable {α β γ : Type}

/-- On the tokens `ts` and then `rest`, the parser `p` takes `ts`, reports the errors `es`, the newest first, and
goes on as `q` on `rest`. -/
def Leads (p : Parser α) (ts rest : List Token) (es : List SyntaxError) (q : Parser α) : Prop :=
  ∀ endPos errors resumed,
    p ⟨ts ++ rest, endPos, errors, resumed⟩ = q ⟨rest, endPos, es ++ errors, resumed⟩

abbrev Reads (p : Parser α) (ts rest : List Token) (es : List SyntaxError) (a : α) : Prop :=
  Leads p ts rest es (pure a)

theorem leads_refl (p : Parser α) (rest : List Token) : Leads p [] rest [] p := fun _ _ _ => rfl

theorem leads_trans {p q r : Parser α} {ts us rest : List Token} {es es' : List SyntaxError}
    (h : Leads p ts (us ++ rest) es q) (h' : Leads q us rest es' r) : Leads p (ts ++ us) rest (es' ++ es) r := by
  intro endPos errors resumed
  rw [List.append_assoc, h, h', List.append_assoc]

/-- A step that takes no token. -/
theorem leads_trans_last {p q r : Parser α} {ts rest : List Token} {es : List SyntaxError}
    (h : Leads p ts rest es q) (h' : Leads q [] rest [] r) : Leads p ts rest es r := by
  intro endPos errors resumed
  rw [h]
  exact h' endPos (es ++ errors) resumed

/-- A parser that reads its tokens hands its result on. -/
theorem leads_bind {p : Parser α} {k : α → Parser β} {q : Parser β} {a : α} {ts us rest : List Token}
    {es es' : List SyntaxError} (hp : Reads p ts (us ++ rest) es a) (hk : Leads (k a) us rest es' q) :
    Leads (p >>= k) (ts ++ us) rest (es' ++ es) q := by
  intro endPos errors resumed
  rw [bind_apply, List.append_assoc, hp]
  change k a _ = _
  rw [hk, List.append_assoc]

/-- The same without errors. -/
theorem leads_seq {p : Parser α} {k : α → Parser β} {q : Parser β} {a : α} {ts us rest : List Token}
    (hp : Reads p ts (us ++ rest) [] a) (hk : Leads (k a) us rest [] q) : Leads (p >>= k) (ts ++ us) rest [] q :=
  leads_bind hp hk

/-- A parser that reads all of the tokens hands its result on. -/
theorem leads_bind_last {p : Parser α} {k : α → Parser β} {q : Parser β} {a : α} {ts rest : List Token}
    {es : List SyntaxError} (hp : Reads p ts rest es a) (hk : Leads (k a) [] rest [] q) :
    Leads (p >>= k) ts rest es q := by
  have h : Leads (p >>= k) (ts ++ []) rest ([] ++ es) q := leads_bind hp hk
  rwa [List.append_nil, List.nil_append] at h

theorem reads_map {p : Parser α} (f : α → β) {a : α} {ts rest : List Token} {es : List SyntaxError}
    (h : Reads p ts rest es a) : Reads (f <$> p) ts rest es (f a) := by
  rw [map_eq_pure_bind]
  exact leads_bind_last h (leads_refl _ rest)

theorem leads_pure_bind {a : α} {k : α → Parser β} {q : Parser β} {ts rest : List Token} {es : List SyntaxError}
    (h : Leads (k a) ts rest es q) : Leads (pure a >>= k) ts rest es q := by
  rwa [pure_bind]

theorem leads_take {f : Token → Option γ} {k : Option γ → Parser α} {q : Parser α} {t : Token} {b : γ}
    {ts rest : List Token} {es : List SyntaxError} (hf : f t = some b) (h : Leads (k (some b)) ts rest es q) :
    Leads (take? f >>= k) (t :: ts) rest es q := by
  intro endPos errors resumed
  rw [bind_apply, take?_some (s := ⟨t :: ts ++ rest, endPos, errors, resumed⟩) rfl hf]
  exact h endPos errors resumed

theorem leads_pass {f : Token → Option γ} {k : Option γ → Parser α} {q : Parser α}
    {ts rest : List Token} {es : List SyntaxError} (hf : ∀ t, (ts ++ rest).head? = some t → f t = none)
    (h : Leads (k none) ts rest es q) : Leads (take? f >>= k) ts rest es q := by
  intro endPos errors resumed
  rw [bind_apply, take?_none hf]
  exact h endPos errors resumed

theorem leads_accept {l : Lexeme} {p : Pos} {k : Option Pos → Parser α} {q : Parser α} {ts rest : List Token}
    {es : List SyntaxError} (h : Leads (k (some p)) ts rest es q) :
    Leads (accept? l >>= k) (⟨l, p⟩ :: ts) rest es q :=
  leads_take (if_pos rfl) h

theorem leads_decline {l : Lexeme} {k : Option Pos → Parser α} {q : Parser α} {ts rest : List Token}
    {es : List SyntaxError} (hn : NotNext l (ts ++ rest)) (h : Leads (k none) ts rest es q) :
    Leads (accept? l >>= k) ts rest es q :=
  leads_pass (fun t ht => if_neg (hn t ht)) h

theorem leads_expect {l : Lexeme} {cause : SyntaxError.Cause} {p : Pos} {k : Pos → Parser α} {q : Parser α}
    {ts rest : List Token} {es : List SyntaxError} (h : Leads (k p) ts rest es q) :
    Leads (expect l cause >>= k) (⟨l, p⟩ :: ts) rest es q := by
  unfold expect
  rw [bind_assoc]
  exact leads_accept h

theorem leads_expectName {cause : SyntaxError.Cause} (x : Name) {k : Name → Parser α} {q : Parser α}
    {ts rest : List Token} {es : List SyntaxError} (h : Leads (k x) ts rest es q) :
    Leads (expectName cause >>= k) (x.token :: ts) rest es q := by
  unfold expectName
  rw [bind_assoc]
  exact leads_take rfl h

theorem leads_nextIs {l : Lexeme} {k : Bool → Parser α} {q : Parser α} {ts rest : List Token}
    {es : List SyntaxError} (hn : NotNext l (ts ++ rest)) (h : Leads (k false) ts rest es q) :
    Leads (nextIs l >>= k) ts rest es q := by
  intro endPos errors resumed
  have hb : (ts ++ rest).head?.any (·.lexeme = l) = false := by
    cases hr : (ts ++ rest).head? with
    | none => rfl
    | some t => simpa using hn t hr
  rw [bind_apply]
  unfold nextIs
  simp only [hb]
  exact h endPos errors resumed

theorem leads_nextIs_true {l : Lexeme} {p : Pos} {k : Bool → Parser α} {q : Parser α} {rest : List Token}
    {es : List SyntaxError} (h : Leads (k true) [] (⟨l, p⟩ :: rest) es q) :
    Leads (nextIs l >>= k) [] (⟨l, p⟩ :: rest) es q := by
  intro endPos errors resumed
  have hb : ((⟨l, p⟩ :: rest : List Token).head?.any (·.lexeme = l)) = true := by simp
  rw [bind_apply]
  unfold nextIs
  simp only [List.nil_append, hb]
  exact h endPos errors resumed

end Lox.Parser
