import BabyLuigi.GraphHistoryProperties
import BabyLuigi.PushTaskProperties
import BabyLuigi.TopologicalSortProperties
import BabyLuigi.FailedRequestProperties
import BabyLuigi.AnsweredRequestProperties
import BabyLuigi.RequestJsonProperties
import BabyLuigi.ZmqRouterProperties
import BabyLuigi.NotifyUpdaterProperties
import BabyLuigi.QueueTimeoutProperties
import BabyLuigi.ExecutionControlProperties
import BabyLuigi.ExecutionSystemProperties
import BabyLuigi.ExecutionerTerminationProperties
import BabyLuigi.ScheduleHistoryProperties
import BabyLuigi.ScheduleThreadProperties
import BabyLuigi.ScheduledOccurrenceProperties
import BabyLuigi.Storage.KeyIsolationProperties
import BabyLuigi.Storage.VersionedStoreProperties
import BabyLuigi.Storage.StoreMapsProperties
import BabyLuigi.Storage.InterruptedUpsertProperties
import BabyLuigi.Storage.MetadataRoundTripProperties
import BabyLuigi.Storage.FailedPutProperties
import BabyLuigi.Storage.VersionNumberProperties
import BabyLuigi.Storage.DamagedFileProperties
import BabyLuigi.ExecutedTasksProperties
import BabyLuigi.Cron.AscendingScheduleProperties
import BabyLuigi.Cron.ListedDaysProperties
import BabyLuigi.Cron.DayCountProperties
import BabyLuigi.Tui.ScheduleFormProperties
import BabyLuigi.ExecutionPoolsTerminationProperties
import BabyLuigi.RequestThreadProperties
import BabyLuigi.Tui.PanelScheduleProperties
import BabyLuigi.ShyguyRunTerminationProperties
import BabyLuigi.ExecutedOrderProperties
import BabyLuigi.Tui.DagPanelProperties
import BabyLuigi.ClientExchangeProperties
import BabyLuigi.RestartedServerProperties
import BabyLuigi.Cron.ThrowingScheduleProperties
