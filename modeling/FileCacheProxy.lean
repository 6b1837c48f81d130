import FileCacheProxy.CleanExpire
import FileCacheProxy.ConfigFormat
import FileCacheProxy.HandlerResources
import FileCacheProxy.RecordRuns
import FileCacheProxy.Teardown
import FileCacheProxy.Isolation
import FileCacheProxy.Workers
import FileCacheProxy.Lifetime
import FileCacheProxy.ExpireDays
import FileCacheProxy.FormatBuffer
import FileCacheProxy.WorkDir
import FileCacheProxy.Settings
import FileCacheProxy.ConfigInvariant
import FileCacheProxy.CleanerOutcome
import FileCacheProxy.Selection
import FileCacheProxy.FileInfo
import FileCacheProxy.UploadFidelity
import FileCacheProxy.ThreadPoolRuns
import FileCacheProxy.JsonRoundTrip
import FileCacheProxy.FileService
import FileCacheProxy.Shutdown
import FileCacheProxy.LogRuns
import FileCacheProxy.SiteRuns
