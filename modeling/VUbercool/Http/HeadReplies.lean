import VUbercool.Http.HeadStream

/-!
# Replies to a stream of heads

What a connection sends for a stream of request heads of any kind, and when it closes.

* `sent_of_heads`: what a connection has come to on heads.
* **`head_replies`**: however the octets of the heads are cut, the connection sends what was planned for them
  and nothing else, and it stays open exactly if no reply closes it.
-/

namespace VUbercool.Http

open Octets Reader

variable {η : Type} {env : Environment η}

/-- Whether a head is steady is a matter of its octets. -/
theorem RequestHead.Steady.congr {h h' : RequestHead} (hsteady : h.Steady) (heq : h.octets = h'.octets) :
    h'.Steady := by
  refine ⟨heq ▸ hsteady.length, fun ls hending => ?_⟩
  obtain ⟨p, hpre, hlt, hin⟩ := exists_empty_line hending
  have hdrop : p <+: h'.octets.dropLast := by
    refine List.prefix_of_prefix_length_le hpre (List.dropLast_prefix _) ?_
    rw [List.length_dropLast]
    exact Nat.le_sub_one_of_lt hlt
  have hnot := not_infix_head hsteady.version
  rw [heq] at hnot
  exact hnot (hin.trans hdrop.isInfix)

section

variable (henv : ReadsHeads env)

include henv

/-- What a connection has come to on heads that are steady. -/
theorem sent_of_heads {date : CachedDate} {clock : ℕ → Int} {hosts : η} {heads : List RequestHead}
    (hheads : ∀ h ∈ heads, h.octets.length ≤ bufferSize ∧ h.Steady) {c : RequestLoop η}
    (hserves : Serves (look env) bufferSize (start date clock hosts).session
      (heads.flatMap RequestHead.octets) (outcome c.abs)) :
    c.session.sent = sents date clock (plans env hosts (heads.map RequestHead.parsed)).1 ∧
      c.isOpen = (plans env hosts (heads.map RequestHead.parsed)).2 := by
  obtain ⟨s', hserves', hsent, -⟩ := @serves_heads η env henv heads (start date clock hosts).session
    fun h hh => (hheads h hh).1
  have hsteady : ∀ s (g : RequestHead) rest,
      ReachedHead env (start date clock hosts).session (heads.flatMap RequestHead.octets) s
        (g.octets ++ rest) → g.octets.length ≤ bufferSize → g.Steady := by
    intro s g rest' hreached _
    obtain ⟨g', hmem, hoctets, -⟩ := hreached.mem
    exact (hheads g' hmem).2.congr hoctets.symm
  have hout := serves_unique_of_heads henv hsteady hserves hserves'
  refine ⟨?_, ?_⟩
  · have hstate : c.session = s' := congrArg Prod.fst hout
    exact hstate ▸ hsent
  · have hopen := congrArg (fun e => e.2.isSome) hout
    simp only at hopen
    rw [isSome_outcome] at hopen
    refine hopen.trans ?_
    split
    · next h => exact h.symm
    · next h => exact (Bool.eq_false_iff.mpr h).symm

/-- **A connection answers what it is asked and nothing else.** However a stream of heads that fit the buffer
and are steady is cut, the connection sends their replies in order, each with the date that its thread formats
for it, up to the first request that closes it, and it stays open exactly if there is none. -/
theorem head_replies (date : CachedDate) (clock : ℕ → Int) (hosts : η) (heads : List RequestHead)
    (hheads : ∀ h ∈ heads, h.octets.length ≤ bufferSize ∧ h.Steady) (pieces : List Bytes)
    (hpieces : pieces.flatten = heads.flatMap RequestHead.octets)
    (hfits : (RequestLoop.machine env).Fits bufferSize (start date clock hosts, pieces)) :
    ∃ c rest, (RequestLoop.machine env).Ends (start date clock hosts, pieces) (c, rest) ∧
      c.session.sent = sents date clock (plans env hosts (heads.map RequestHead.parsed)).1 ∧
      c.isOpen = (plans env hosts (heads.map RequestHead.parsed)).2 := by
  obtain ⟨c, rest, hends, hserves⟩ := exists_ends_of_heads henv date clock hosts hfits
  rw [hpieces] at hserves
  exact ⟨c, rest, hends, sent_of_heads henv hheads hserves⟩

end

/-- A head of the old version. -/
def sampleClosing : RequestHead :=
  { sampleHead with ending := .lines (.http10 ⟨ascii "HTTP/1.0", by decide⟩) [] }

/-- Three heads, octet by octet: the second one closes the connection. -/
theorem head_replies_three :
    ∃ c rest, (RequestLoop.machine headEnvironment).Ends (start .empty (fun _ => 1) (),
        singles ([sampleHead, sampleClosing, sampleHead].flatMap RequestHead.octets)) (c, rest) ∧
      c.session.sent = sents .empty (fun _ => 1) [(sampleHello, sampleHead.parsed),
        ({ sampleHello with closeOnReply := true }, sampleClosing.parsed)] ∧ c.isOpen = false := by
  have hfits := fits_singles (lawful_of_heads readsHeads_headEnvironment)
    (ready_fresh readsHeads_headEnvironment (start .empty (fun _ => 1) ()).session)
    ([sampleHead, sampleClosing, sampleHead].flatMap RequestHead.octets)
  have hle : sampleHead.octets.length ≤ bufferSize ∧ sampleHead.Steady :=
    ⟨by decide +kernel, by decide +kernel, fun ls h => by cases h⟩
  have hle' : sampleClosing.octets.length ≤ bufferSize ∧ sampleClosing.Steady :=
    ⟨by decide +kernel, by decide +kernel, fun ls h => by cases h⟩
  exact head_replies readsHeads_headEnvironment .empty (fun _ => 1) ()
    [sampleHead, sampleClosing, sampleHead] (by simpa using ⟨hle, hle', hle⟩) _ (flatten_singles _)
    ((RequestLoop.refines _).fits_iff.mp hfits)

end VUbercool.Http
