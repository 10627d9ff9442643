import BabyLuigi.Cron.AscendingScheduleProperties

/-! For which accepted schedules the search for the next time throws nothing. -/

set_option autoImplicit false

namespace BabyLuigi.Cron.CronExpression

open DateTime

variable {expression : CronExpression} {text : Str} {start last : DateTime}

end BabyLuigi.Cron.CronExpression
